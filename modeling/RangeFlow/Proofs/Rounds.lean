import RangeFlow.Analysis.Evolution
import RangeFlow.Proofs.Facts
import RangeFlow.Proofs.Loops

/-! # Rounds of a loop

An execution comes into a loop, stays in it for some rounds, each of which starts at the header, and
leaves it. A name that is merged at the header and for which an evolution is known has in every
round the value that the evolution gives: no other statement sets it, and what comes back from the
loop is its value in the round that ends, plus the step.
-/

namespace RangeFlow

theorem chainEnd_induction {next : NameId → Option NameId} {motive : NameId → Prop}
    (step : ∀ n m, next n = some m → motive n → motive m) {fuel : Nat} {n : NameId}
    (h : motive n) : motive (chainEnd next fuel n) := by
  induction fuel generalizing n with
  | zero => exact h
  | succ fuel ih =>
      cases following : next n with
      | none => simpa [chainEnd, chain, following] using h
      | some m =>
          have rest := ih (step n m following h)
          simpa [chainEnd, chain, following, List.getLast?_cons] using rest

theorem ScalarType.wrap_wrap_add (ty : ScalarType) (x y : Int) :
    ty.wrap (ty.wrap x + y) = ty.wrap (x + y) := by
  apply eq_of_emod_eq (ty.wrap_fits _) (ty.wrap_fits _)
  rw [ty.wrap_emod, ty.wrap_emod, Int.add_emod, ty.wrap_emod, ← Int.add_emod]

/-- The value is the other one plus a step, wrapped to the type, and not wrapped where the overflow
    of the type is undefined. -/
def Advances (config : Config) (ty : ScalarType) (step before after : Int) : Prop :=
  after = ty.wrap (before + step) ∧
    (config.strictOverflow = true → ty.overflowUndefined = true → after = before + step)

theorem advances_of_fold {config : Config} {ty : ScalarType} {op : BinaryOp}
    {a b before step v : Int}
    (linear : ∀ r, op.applyExact a b (config.effectiveType ty) = some r → r = before + step)
    (normal : op ≠ .shl) (h : op.fold a b (config.effectiveType ty) = some v) :
    Advances config ty step before v := by
  constructor
  · obtain ⟨exact, hexact, rfl⟩ := BinaryOp.fold_eq_some h
    rw [linear exact hexact, effectiveType_wrap]
  · intro strict undefined
    obtain ⟨exact, hexact, h⟩ := Option.bind_eq_some_iff.mp h
    rw [linear exact hexact] at h
    split at h
    · exact (Option.some.inj h).symm
    · split at h
      · next wraps =>
          have stops : ty.wraps = false := by
            simp only [ScalarType.overflowUndefined, Bool.and_eq_true, Bool.not_eq_true'] at undefined
            exact undefined.2
          simp [Config.effectiveType, strict, stops, normal] at wraps
      · cases h

namespace Function

/-- An iteration with a known step adds or subtracts a literal. -/
theorem updateOf_cases {f : Function} {iv : InductionVar} {step : Int}
    (update : f.updateOf iv.update iv.phi = (iv.kind, iv.stride)) (hstep : iv.step? = some step) :
    ∃ m op x y, iv.update = .name m ∧ f.defRhs? (f.stripCopies m) = some (.binary op x y) ∧
      (op = .add ∧ (f.isCopyOf iv.phi x = true ∧ f.literal? y = some step ∨
          f.isCopyOf iv.phi y = true ∧ f.literal? x = some step) ∨
        op = .sub ∧ f.isCopyOf iv.phi x = true ∧ ∃ c, f.literal? y = some c ∧ step = -c) := by
  have unknown : (UpdateKind.unknown, none) ≠ (iv.kind, iv.stride) := by
    intro same
    obtain ⟨kind, -⟩ := Prod.mk.inj same
    simp [InductionVar.step?, ← kind] at hstep
  unfold updateOf at update
  split at update
  · next x y hrhs =>
      obtain ⟨m, hm, hrhs⟩ := Option.bind_eq_some_iff.mp hrhs
      refine ⟨m, .add, x, y, Operand.name?_eq_some.mp hm, hrhs, .inl ⟨rfl, ?_⟩⟩
      split at update
      · next copy =>
          obtain ⟨kind, stride⟩ := Prod.mk.inj update
          rw [InductionVar.step?, ← kind, ← stride] at hstep
          exact .inl ⟨copy, hstep⟩
      · split at update
        · next copy =>
            obtain ⟨kind, stride⟩ := Prod.mk.inj update
            rw [InductionVar.step?, ← kind, ← stride] at hstep
            exact .inr ⟨copy, hstep⟩
        · exact absurd update unknown
  · next x y hrhs =>
      obtain ⟨m, hm, hrhs⟩ := Option.bind_eq_some_iff.mp hrhs
      refine ⟨m, .sub, x, y, Operand.name?_eq_some.mp hm, hrhs, .inr ⟨rfl, ?_⟩⟩
      split at update
      · next copy =>
          obtain ⟨kind, stride⟩ := Prod.mk.inj update
          rw [InductionVar.step?, ← kind, ← stride] at hstep
          obtain ⟨c, hc, negated⟩ := Option.bind_eq_some_iff.mp hstep
          exact ⟨copy, c, hc, Wide.eq_of_check negated⟩
      · exact absurd update unknown
  · exact absurd update unknown

section Copies

variable {f : Function} {config : Config} {block : BlockId} {index : Nat} {env : Env}
  (hf : f.Valid) (uses : f.UsesDominated) (consistent : f.Consistent config block index env)

include hf uses consistent

/-- A copy has the value and the type of what it copies. -/
theorem Consistent.copySource {n m : NameId} (h : f.copySource? n = some m)
    (dominated : f.Dominated n block index) :
    f.Dominated m block index ∧ env m = env n ∧ f.typeOf m = f.typeOf n := by
  unfold copySource? at h
  split at h
  · next subject predicate hrhs =>
      cases h
      obtain ⟨v, hv, value, check, read⟩ := consistent.of_defRhs? hf uses hrhs dominated
      obtain ⟨_, -, typed⟩ := bind_eq_ok.mp check
      have same : env m = some v := value
      refine ⟨read m (by simp [Rhs.usedNames]), same.trans hv.symm, ?_⟩
      exact (checkOperand_eq_ok.mp typed).2
  · next source hrhs =>
      cases h
      obtain ⟨v, hv, value, check, read⟩ := consistent.of_defRhs? hf uses hrhs dominated
      obtain ⟨_, -, typed⟩ := bind_eq_ok.mp check
      have same : env m = some v := value
      refine ⟨read m (by simp [Rhs.usedNames, Rhs.operands, Operand.name?]), same.trans hv.symm, ?_⟩
      exact (checkOperand_eq_ok.mp typed).2
  · cases h

/-- So has the name behind all copies. -/
theorem Consistent.stripCopies {n : NameId} (dominated : f.Dominated n block index) :
    f.Dominated (f.stripCopies n) block index ∧ env (f.stripCopies n) = env n ∧
      f.typeOf (f.stripCopies n) = f.typeOf n := by
  have keeps := @chainEnd_induction f.copySource?
    (fun m => f.Dominated m block index ∧ env m = env n ∧ f.typeOf m = f.typeOf n)
  apply keeps
  · rintro m m' following ⟨set, value, type⟩
    obtain ⟨set', value', type'⟩ := consistent.copySource hf uses following set
    exact ⟨set', value'.trans value, type'.trans type⟩
  · exact ⟨dominated, rfl, rfl⟩

theorem Consistent.literal {o : Operand} {c : Int} (h : f.literal? o = some c)
    (dominated : ∀ n, o = .name n → f.Dominated n block index) : env.operand o = some c := by
  cases o with
  | const d => exact h
  | name n =>
      unfold literal? at h
      obtain ⟨set, value, -⟩ := consistent.stripCopies hf uses (dominated n rfl)
      dsimp only at h
      split at h
      · next d hrhs =>
          cases h
          obtain ⟨v, hv, same, -⟩ := consistent.of_defRhs? hf uses hrhs set
          have here : some c = some v := same
          rw [Env.operand, ← value, hv, here]
      · cases h

theorem Consistent.isCopyOf {o : Operand} {name : NameId} (h : f.isCopyOf name o = true)
    (dominated : ∀ n, o = .name n → f.Dominated n block index) :
    env.operand o = env name ∧ ∀ ty, f.Typed ty o → f.typeOf name = ty := by
  cases o with
  | const c => cases h
  | name n =>
      have same : f.stripCopies n = name := eq_of_beq h
      obtain ⟨-, value, type⟩ := consistent.stripCopies hf uses (dominated n rfl)
      rw [same] at value type
      refine ⟨value.symm, ?_⟩
      rintro ty typed
      exact type.trans typed.2

/-- What an iteration computes is the merged name, advanced by the step. -/
theorem Consistent.advance {iv : InductionVar} {step : Int}
    (update : f.updateOf iv.update iv.phi = (iv.kind, iv.stride)) (hstep : iv.step? = some step)
    (tracked : (f.typeOf iv.phi).isTracked = true) :
    ∃ m, iv.update = .name m ∧ (f.Dominated (f.stripCopies m) block index →
      f.typeOf (f.stripCopies m) = f.typeOf iv.phi ∧
      ∃ a v, env iv.phi = some a ∧ env (f.stripCopies m) = some v ∧
        Advances config (f.typeOf iv.phi) step a v) := by
  obtain ⟨m, op, x, y, named, hrhs, parts⟩ := updateOf_cases update hstep
  refine ⟨m, named, fun set => ?_⟩
  obtain ⟨v, hv, ⟨a, b, ha, hb, computed⟩, check, read⟩ := consistent.of_defRhs? hf uses hrhs set
  obtain ⟨_, -, check⟩ := bind_eq_ok.mp check
  obtain ⟨_, typedX, typedY⟩ := bind_eq_ok.mp check
  have setX : ∀ n, x = .name n → f.Dominated n block index := by
    rintro n rfl
    exact read n (by simp [Rhs.usedNames, Rhs.operands, Operand.name?])
  have setY : ∀ n, y = .name n → f.Dominated n block index := by
    rintro n rfl
    exact read n (by simp [Rhs.usedNames, Rhs.operands, Operand.name?])
  -- with the type and the value of the merged name, the fold is an advance
  have advance : ∀ before, env iv.phi = some before → f.typeOf iv.phi = f.typeOf (f.stripCopies m) →
      op ≠ .shl → (∀ r, op.applyExact a b (f.runType config (f.stripCopies m)) = some r →
        r = before + step) → f.typeOf (f.stripCopies m) = f.typeOf iv.phi ∧
          ∃ a v, env iv.phi = some a ∧ env (f.stripCopies m) = some v ∧
            Advances config (f.typeOf iv.phi) step a v := by
    intro before hbefore type normal linear
    rw [type] at tracked ⊢
    refine ⟨rfl, before, v, hbefore, hv, advances_of_fold linear normal (computed ?_)⟩
    rw [runType, effectiveType_isTracked]
    exact tracked
  rcases parts with ⟨rfl, ⟨copy, literal⟩ | ⟨copy, literal⟩⟩ | ⟨rfl, copy, c, literal, rfl⟩
  · obtain ⟨value, type⟩ := consistent.isCopyOf hf uses copy setX
    have constant := consistent.literal hf uses literal setY
    rw [hb] at constant
    cases constant
    apply advance a (value.symm.trans ha) (type _ (checkOperand_eq_ok.mp typedX)) (by decide)
    intro r hr
    exact Wide.eq_of_check hr
  · obtain ⟨value, type⟩ := consistent.isCopyOf hf uses copy setY
    have constant := consistent.literal hf uses literal setX
    rw [ha] at constant
    cases constant
    apply advance b (value.symm.trans hb) (type _ (checkOperand_eq_ok.mp typedY)) (by decide)
    intro r hr
    rw [Wide.eq_of_check hr, Int.add_comm]
  · obtain ⟨value, type⟩ := consistent.isCopyOf hf uses copy setX
    have constant := consistent.literal hf uses literal setY
    rw [hb] at constant
    cases constant
    apply advance a (value.symm.trans ha) (type _ (checkOperand_eq_ok.mp typedX)) (by decide)
    intro r hr
    exact (Wide.eq_of_check hr).trans Int.sub_eq_add_neg

/-- So is what an iteration hands on. -/
theorem Consistent.update {iv : InductionVar} {step : Int}
    (update : f.updateOf iv.update iv.phi = (iv.kind, iv.stride)) (hstep : iv.step? = some step)
    (dominated : ∀ n, iv.update = .name n → f.Dominated n block index)
    (tracked : (f.typeOf iv.phi).isTracked = true) :
    ∃ a v, env iv.phi = some a ∧ env.operand iv.update = some v ∧
      Advances config (f.typeOf iv.phi) step a v := by
  obtain ⟨m, named, computed⟩ := consistent.advance hf uses update hstep tracked
  obtain ⟨set, same, -⟩ := consistent.stripCopies hf uses (dominated m named)
  obtain ⟨-, a, v, ha, hv, advances⟩ := computed set
  refine ⟨a, v, ha, ?_, advances⟩
  rw [named, Env.operand, ← same, hv]

end Copies

/-- The merge takes one value from outside the loop, and from everywhere inside it itself with the
    step added. -/
structure Evolves (f : Function) (l : NaturalLoop) (phi : Phi) (iv : InductionVar) (step : Int) :
    Prop where
  header : ∃ index, f.phiAt? l.header index = some phi
  name : iv.phi = phi.dest
  starts : ∃ o ∈ phi.operands, o.value = iv.init
  outside : ∀ o ∈ phi.operands, l.contains o.predecessor = false → o.value = iv.init
  inside : ∀ o ∈ phi.operands, l.contains o.predecessor = true → o.value = iv.update
  update : f.updateOf iv.update iv.phi = (iv.kind, iv.stride)
  step : iv.step? = some step

section Recognized

variable {f : Function} {l : NaturalLoop}

theorem mem_headerPhis {phi : Phi} :
    phi ∈ f.headerPhis l ↔ ∃ index, f.phiAt? l.header index = some phi := by
  unfold headerPhis
  cases hb : f.block? l.header with
  | none => simp [phiAt?, hb]
  | some b => simp [phiAt?, hb, List.mem_iff_getElem?]

theorem inductionVar?_eq_some {phi : Phi} {iv : InductionVar}
    (h : f.inductionVar? l phi = some iv) : iv.phi = phi.dest ∧
      (∃ o ∈ phi.operands, o.value = iv.init) ∧
      (∀ o ∈ phi.operands, l.contains o.predecessor = false → o.value = iv.init) ∧
      f.updateOf iv.update iv.phi = (iv.kind, iv.stride) := by
  unfold inductionVar? at h
  dsimp only at h
  split at h
  · next init update rest outside inside =>
      cases h
      refine ⟨rfl, ⟨init, ?_, rfl⟩, fun o ho away => ?_, rfl⟩
      · have member := List.mem_singleton_self init
        rw [← outside] at member
        exact List.mem_of_mem_filter member
      · have member : o ∈ phi.operands.filter fun o => !l.contains o.predecessor :=
          List.mem_filter.mpr ⟨ho, by simp [away]⟩
        rw [outside] at member
        rw [List.mem_singleton.mp member]
  · cases h

/-- A name that is merged at a header has one merge. -/
theorem Valid.phi_unique (hf : f.Valid) {phi phi' : Phi} (h : phi ∈ f.headerPhis l)
    (h' : phi' ∈ f.headerPhis l) (same : phi'.dest = phi.dest) : phi' = phi := by
  obtain ⟨i, hi⟩ := mem_headerPhis.mp h
  obtain ⟨j, hj⟩ := mem_headerPhis.mp h'
  have site := hf.defSite?_phi hi
  rw [← same, hf.defSite?_phi hj] at site
  cases site
  exact Option.some.inj (hj.symm.trans hi)

/-- An evolution is read off a merge that evolves. -/
theorem Valid.evolution?_eq_some (hf : f.Valid) {t : DominatorTree} {strict : Bool} {name : NameId}
    {ev : Evolution} (h : f.evolution? t strict l name = some ev) : ∃ phi iv,
      f.Evolves l phi iv ev.step ∧ phi.dest = name ∧ ev.init = iv.init ∧
      ev.tripCount =
        (if ev.step = 0 then none else f.tripCount? t l iv ev.step (f.typeOf name)) ∧
      ev.noWrap = (strict && (f.typeOf name).overflowUndefined || ev.tripCount.isSome) ∧
      ev.direction = .ofStep ev.step := by
  unfold evolution? at h
  obtain ⟨iv, hiv, h⟩ := Option.bind_eq_some_iff.mp h
  obtain ⟨phi, hphi, h⟩ := Option.bind_eq_some_iff.mp h
  split at h
  · cases h
  · next uniform =>
      obtain ⟨step, hstep, h⟩ := Option.bind_eq_some_iff.mp h
      cases h
      obtain ⟨before, phi', after, listed, hphi', -⟩ := List.findSome?_eq_some_iff.mp hiv
      have member : phi' ∈ (f.headerPhis l).filter (·.dest == name) := by
        rw [listed]
        simp
      obtain ⟨member, dest'⟩ := List.mem_filter.mp member
      have dest := List.find?_some hphi
      have known := List.mem_of_find?_eq_some hphi
      have same : phi' = phi :=
        hf.phi_unique known member ((eq_of_beq dest').trans (eq_of_beq dest).symm)
      subst same
      obtain ⟨named, starts, outside, update⟩ := inductionVar?_eq_some hphi'
      refine ⟨phi', iv, ⟨mem_headerPhis.mp known, named, starts, outside, ?_, update, hstep⟩,
        eq_of_beq dest, rfl, rfl, rfl, rfl⟩
      intro o ho within
      by_contra other
      refine uniform (List.any_eq_true.mpr ⟨o, ho, ?_⟩)
      simpa [within] using other

variable {phi : Phi} {iv : InductionVar} {step : Int} (hf : f.Valid)
  (evolves : f.Evolves l phi iv step)

include hf evolves

theorem Evolves.operand_from {p : BlockId} (feeds : f.Feeds p l.header) :
    ∃ o ∈ phi.operands, o.predecessor = p ∧ phi.operandFrom? p = some o.value ∧
      o.value = if l.contains p then iv.update else iv.init := by
  obtain ⟨index, hphi⟩ := evolves.header
  obtain ⟨t, ht, hi⟩ := phiAt?_eq_some.mp hphi
  obtain ⟨-, -, -, complete⟩ :=
    checkPhi_eq_ok.mp (hf.phis l.header t ht phi (List.mem_of_getElem? hi))
  have known : p ∈ f.predecessors l.header := (mem_predecessors (hf.feeds_lt feeds).2).mpr feeds
  obtain ⟨v, hv⟩ := Option.isSome_iff_exists.mp (complete p known)
  obtain ⟨o, ho, rfl⟩ := Option.map_eq_some_iff.mp hv
  have source : o.predecessor = p := by
    have found := List.find?_some ho
    exact eq_of_beq found
  have member := List.mem_of_find?_eq_some ho
  refine ⟨o, member, source, hv, ?_⟩
  cases within : l.contains p with
  | true => exact evolves.inside o member (source ▸ within)
  | false => exact evolves.outside o member (source ▸ within)

/-- What the merge takes when control comes to the header. -/
theorem Evolves.merged {p : BlockId} {t : Block} {env : Env} (feeds : f.Feeds p l.header)
    (ht : f.block? l.header = some t) : t.mergeFrom p env phi.dest =
      env.operand (if l.contains p then iv.update else iv.init) := by
  obtain ⟨index, hphi⟩ := evolves.header
  obtain ⟨t', ht', hi⟩ := phiAt?_eq_some.mp hphi
  rw [ht] at ht'
  cases ht'
  have first : t.phis.find? (·.dest == phi.dest) = some phi := by
    cases found : t.phis.find? (·.dest == phi.dest) with
    | none =>
        have none := List.find?_eq_none.mp found phi (List.mem_of_getElem? hi)
        simp at none
    | some phi' =>
        have listed : ∀ q ∈ t.phis, q ∈ f.headerPhis l := fun q hq => by
          obtain ⟨j, hj⟩ := List.mem_iff_getElem?.mp hq
          exact mem_headerPhis.mpr ⟨j, phiAt?_eq_some.mpr ⟨t, ht, hj⟩⟩
        have dest := List.find?_some found
        rw [hf.phi_unique (listed phi (List.mem_of_getElem? hi))
          (listed phi' (List.mem_of_find?_eq_some found)) (eq_of_beq dest)]
  obtain ⟨o, -, -, taken, value⟩ := evolves.operand_from hf feeds
  rw [Block.mergeFrom, first]
  dsimp only
  rw [taken, Option.bind_some, value]

/-- What the merge takes has been set before. -/
theorem Evolves.taken_dominated (uses : f.UsesDominated) {s : ExecState}
    (leave : f.Leaves s l.header) {n : NameId}
    (named : (if l.contains s.block then iv.update else iv.init) = .name n) :
    f.Dominated n s.block s.index := by
  obtain ⟨index, hphi⟩ := evolves.header
  obtain ⟨b, hb, atEnd, member⟩ := leave.mem_targets
  obtain ⟨o, ho, source, -, value⟩ := evolves.operand_from hf ⟨b, hb, member⟩
  rw [atEnd, ← source]
  exact uses.phi l.header index phi o n b hphi ho (value.trans named) (source ▸ hb)

end Recognized

/-- An execution comes into a loop: from a block outside, or because the function starts there. -/
inductive Enters (f : Function) (config : Config) (l : NaturalLoop) :
    Option ExecState → ExecState → Prop where
  | start {env : Env} (h : f.Initial config env) (inside : l.contains f.entry = true) :
      Enters f config l none ⟨f.entry, 0, env⟩
  | edge {s : ExecState} {target : BlockId} {t : Block} (reached : f.Reaches config s)
      (outside : l.contains s.block = false) (leave : f.Leaves s target)
      (inside : l.contains target = true) (ht : f.block? target = some t) :
      Enters f config l (some s) ⟨target, 0, t.mergeFrom s.block s.env⟩

/-- Since the first state the execution has not left the loop, and it has come back to the header
    so many times. -/
inductive Stays (f : Function) (config : Config) (l : NaturalLoop) (first : ExecState) :
    Nat → ExecState → Prop where
  | first : Stays f config l first 0 first
  | stmt {k : Nat} {block : BlockId} {index : Nat} {env env' : Env} {stmt : Stmt}
      (stays : Stays f config l first k ⟨block, index, env⟩)
      (hstmt : f.stmtAt? block index = some stmt) (run : f.Runs config env stmt env') :
      Stays f config l first k ⟨block, index + 1, env'⟩
  | onward {k : Nat} {s : ExecState} {target : BlockId} {t : Block}
      (stays : Stays f config l first k s) (leave : f.Leaves s target)
      (inside : l.contains target = true) (other : target ≠ l.header)
      (ht : f.block? target = some t) :
      Stays f config l first k ⟨target, 0, t.mergeFrom s.block s.env⟩
  | back {k : Nat} {s : ExecState} {t : Block} (stays : Stays f config l first k s)
      (leave : f.Leaves s l.header) (ht : f.block? l.header = some t) :
      Stays f config l first (k + 1) ⟨l.header, 0, t.mergeFrom s.block s.env⟩

/-- A name that is defined in a block has no value at the start. -/
theorem Initial.undefined {f : Function} {config : Config} {env : Env} (h : f.Initial config env)
    (hf : f.Valid) {n : NameId} {site : DefSite} (inner : (n, site) ∈ f.innerDefs) :
    env n = none := by
  have listed : n ∈ f.blocks.flatMap Block.defs := by
    rw [← map_fst_innerDefs]
    exact List.mem_map_of_mem inner
  have origin := h n
  split at origin
  · next position nonnull named =>
      obtain ⟨info, hinfo, param⟩ := Option.map_eq_some_iff.mp named
      refine absurd (List.mem_filterMap.mpr ⟨(info, n), ?_, ?_⟩) (hf.defsNew n listed)
      · exact List.mem_zipIdx_iff_getElem?.mpr hinfo
      · simp [param, Origin.isDefault]
  · exact origin

section Run

variable {f : Function} {config : Config} {l : NaturalLoop} {before : Option ExecState}
  {first s : ExecState} {k : Nat}

theorem Enters.reaches (enters : f.Enters config l before first) : f.Reaches config first := by
  cases enters with
  | start h inside => exact .start h
  | edge reached outside leave inside ht => exact reached.step (.edge leave ht)

theorem Stays.reaches (reached : f.Reaches config first) (stays : f.Stays config l first k s) :
    f.Reaches config s := by
  induction stays with
  | first => exact reached
  | stmt _ hstmt run ih => exact ih.step (.stmt hstmt run)
  | onward _ leave _ _ ht ih => exact ih.step (.edge leave ht)
  | back _ leave ht ih => exact ih.step (.edge leave ht)

theorem Leaves.feeds {target : BlockId} (leave : f.Leaves s target) : f.Feeds s.block target := by
  obtain ⟨b, hb, -, member⟩ := leave.mem_targets
  exact ⟨b, hb, member⟩

variable (hf : f.Valid) (hl : l ∈ f.loops.loops)

include hl

/-- A loop is entered at its header. -/
theorem Enters.block_eq (hf : f.Valid) (enters : f.Enters config l before first) :
    first.block = l.header := by
  cases enters with
  | start h inside =>
      rcases hf.header_onEveryPath hl inside [] .entry with same | passed
      · exact same.symm
      · cases passed
  | edge reached outside leave inside ht => exact hf.eq_header_of_enters hl leave.feeds inside outside

theorem Stays.inside (started : first.block = l.header) (stays : f.Stays config l first k s) :
    l.contains s.block = true := by
  induction stays with
  | first =>
      rw [started]
      exact contains_header hl
  | stmt _ _ _ ih => exact ih
  | onward _ _ inside _ _ _ => exact inside
  | back _ _ _ _ => exact contains_header hl

end Run

/-- The value of an evolving name in a round, by its value in the first one. Without a first value
    there is no second round. -/
def RoundValue (config : Config) (ty : ScalarType) (step : Int) (start : Option Int) (k : Nat)
    (value : Option Int) : Prop :=
  (start = none ∧ value = none ∧ k = 0) ∨
    ∃ i, start = some i ∧ value = some (ty.wrap (i + k * step)) ∧
      (config.strictOverflow = true → ty.overflowUndefined = true → ty.fits (i + k * step) = true)

/-- The value that is handed on at the end of a round is that of the next round. -/
theorem RoundValue.next {config : Config} {ty : ScalarType} {step a v : Int} {start : Option Int}
    {k : Nat} (h : RoundValue config ty step start k (some a)) (advances : Advances config ty step a v)
    (fits : ty.fits v = true) : RoundValue config ty step start (k + 1) (some v) := by
  rcases h with ⟨-, none, -⟩ | ⟨i, hi, value, exact⟩
  · cases none
  · have sum : i + ((k + 1 : Nat) : Int) * step = i + k * step + step := by
      rw [Int.natCast_add, Int.add_mul, Int.add_assoc]
      simp
    cases Option.some.inj value
    refine .inr ⟨i, hi, ?_, fun strict undefined => ?_⟩
    · rw [sum, advances.1, ty.wrap_wrap_add]
    · rw [sum, ← ty.wrap_of_fits (exact strict undefined), ← advances.2 strict undefined]
      exact fits

section Value

variable {f : Function} {config : Config} {l : NaturalLoop} {before : Option ExecState}
  {first s : ExecState} {k : Nat} {phi : Phi} {iv : InductionVar} {step : Int} (hf : f.Valid)
  (evolves : f.Evolves l phi iv step)

include hf evolves

theorem Evolves.kept_by_stmt {block : BlockId} {index : Nat} {stmt : Stmt} {env env' : Env}
    (hstmt : f.stmtAt? block index = some stmt) (run : f.Runs config env stmt env') :
    env' phi.dest = env phi.dest := by
  cases run with
  | @assign dest rhs value h =>
      apply Env.set_of_ne
      rintro rfl
      obtain ⟨i, hi⟩ := evolves.header
      have site := hf.defSite?_phi hi
      rw [hf.defSite?_stmt hstmt rfl] at site
      cases site
  | store => rfl
  | nop => rfl

theorem Evolves.kept_by_edge {target : BlockId} {t : Block} {p : BlockId} {env : Env}
    (ht : f.block? target = some t) (other : target ≠ l.header) :
    t.mergeFrom p env phi.dest = env phi.dest := by
  apply Block.mergeFrom_of_not_mem
  intro member
  obtain ⟨phi', hphi', same⟩ := List.mem_map.mp member
  obtain ⟨j, hj⟩ := List.mem_iff_getElem?.mp hphi'
  obtain ⟨i, hi⟩ := evolves.header
  have site := hf.defSite?_phi hi
  rw [← same, hf.defSite?_phi (phiAt?_eq_some.mpr ⟨t, ht, hj⟩)] at site
  cases site
  exact other rfl

/-- Control that comes from outside brings the first value. -/
theorem Enters.first_value (hl : l ∈ f.loops.loops) {origin : ExecState}
    (enters : f.Enters config l (some origin) first) :
    first.env phi.dest = origin.env.operand iv.init := by
  have started := enters.block_eq hl hf
  cases enters with
  | edge reached outside leave inside ht =>
      dsimp only at started
      subst started
      have merged := @Evolves.merged f l phi iv step hf evolves _ _ origin.env leave.feeds ht
      rwa [outside, if_neg (by decide)] at merged

variable (uses : f.UsesDominated)

include uses

/-- In every round the evolving name has the value of the round. -/
theorem Stays.value (hl : l ∈ f.loops.loops) (tracked : (f.typeOf phi.dest).isTracked = true)
    (enters : f.Enters config l before first) (stays : f.Stays config l first k s) :
    RoundValue config (f.typeOf phi.dest) step (first.env phi.dest) k (s.env phi.dest) := by
  have started := enters.block_eq hl hf
  -- within a round nothing sets the name again; an edge back to the header advances it
  induction stays with
  | first =>
      cases value : first.env phi.dest with
      | none => exact .inl ⟨rfl, rfl, rfl⟩
      | some i =>
          have fits := (enters.reaches.consistent hf uses).typed phi.dest i value tracked
          refine .inr ⟨i, rfl, ?_, fun _ _ => ?_⟩
          · simp [ScalarType.wrap_of_fits fits]
          · simpa using fits
  | stmt _ hstmt run ih =>
      dsimp only
      rw [evolves.kept_by_stmt hf hstmt run]
      exact ih
  | onward _ _ _ other ht ih =>
      dsimp only
      rw [evolves.kept_by_edge hf ht other]
      exact ih
  | @back k s t stays leave ht ih =>
      have reached := stays.reaches enters.reaches
      have consistent := reached.consistent hf uses
      have inside := stays.inside hl started
      have dominated : ∀ n, iv.update = .name n → f.Dominated n s.block s.index := by
        intro n named
        apply evolves.taken_dominated hf uses leave
        rw [inside]
        exact named
      rw [← evolves.name] at tracked
      obtain ⟨a, v, ha, hv, advances⟩ :=
        consistent.update hf uses evolves.update evolves.step dominated tracked
      rw [evolves.name] at ha advances tracked
      have merged := @Evolves.merged f l phi iv step hf evolves s.block t s.env leave.feeds ht
      rw [inside, if_pos rfl, hv] at merged
      have typed := ((reached.step (.edge leave ht)).consistent hf uses).typed phi.dest v merged
      dsimp only
      rw [merged]
      rw [ha] at ih
      exact ih.next advances (typed tracked)

/-- If the first value is a literal, it is that literal. -/
theorem Enters.eq_literal (hl : l ∈ f.loops.loops) {init i : Int}
    (literal : f.literal? iv.init = some init) (enters : f.Enters config l before first)
    (hi : first.env phi.dest = some i) : i = init := by
  cases before with
  | none =>
      cases enters with
      | start h inside =>
          obtain ⟨index, hphi⟩ := evolves.header
          have unset := h.undefined hf (mem_innerDefs_phi.mpr ⟨phi, hphi, rfl⟩)
          cases unset.symm.trans hi
  | some origin =>
      rw [enters.first_value hf evolves hl] at hi
      have started := enters.block_eq hl hf
      cases enters with
      | edge reached outside leave inside ht =>
          dsimp only at started
          subst started
          have value := (reached.consistent hf uses).literal hf uses literal fun n named => by
            apply evolves.taken_dominated hf uses leave
            rw [outside]
            exact named
          rw [hi] at value
          exact Option.some.inj value

end Value

end Function

end RangeFlow
