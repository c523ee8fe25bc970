import Mathlib
import RangeFlow.Proofs.Iterations
import RangeFlow.Proofs.Rounds

/-! # Trip counts

A test that every round passes compares the evolving name, or its value after the round, with a
constant, and the loop goes on only while the comparison holds. The number of rounds is counted from
the comparison, as long as the values do not leave the type. The count is right unless a block that
leaves the loop may also raise an exception into it.
-/

namespace RangeFlow

/-- Between two values of a type that are steps apart, all steps are values. -/
theorem ScalarType.fits_between {ty : ScalarType} {base step : Int} {k m : Nat}
    (first : ty.fits base = true) (last : ty.fits (base + m * step) = true) (le : k ≤ m) :
    ty.fits (base + k * step) = true := by
  rw [fits_iff] at first last ⊢
  have cast : (k : Int) ≤ m := Int.ofNat_le.mpr le
  rcases Int.le_total 0 step with up | down
  · have below := Int.mul_le_mul_of_nonneg_right cast up
    have above := Int.mul_nonneg (Int.natCast_nonneg k) up
    omega
  · have above := Int.mul_le_mul_of_nonpos_right cast down
    have below := Int.mul_nonpos_of_nonneg_of_nonpos (Int.natCast_nonneg k) down
    omega

namespace Function

theorem tripsBy?_eq_some {ty : ScalarType} {base step limit : Int} {op : CmpOp} {t : Nat}
    (moves : step ≠ 0) (h : tripsBy? ty base step op limit = some t) :
    ∃ m, t = m + 1 ∧ ty.fits base = true ∧ ty.fits (base + m * step) = true ∧
      op.eval (base + m * step) limit = false := by
  unfold tripsBy? at h
  split at h
  · cases h
  · next m counted =>
      dsimp only at h
      split at h
      · next fit =>
          cases h
          obtain ⟨first, last⟩ := Bool.and_eq_true_iff.mp fit
          obtain ⟨v, hv, fits⟩ := (Option.any_eq_true _ _).mp last
          obtain ⟨m', hm', hv⟩ := Option.bind_eq_some_iff.mp hv
          obtain ⟨product, hproduct, hv⟩ := Option.bind_eq_some_iff.mp hv
          have value : v = base + m * step := by
            rw [Wide.eq_of_check hv, Wide.eq_of_check hproduct, Wide.eq_of_check hm', Int.mul_comm]
          exact ⟨m, rfl, first, value ▸ fits, eval_continuingIterations moves counted⟩
      · cases h

/-- No block that leaves the loop raises an exception into it. -/
def Unraised (f : Function) (l : NaturalLoop) : Prop :=
  ∀ exit ∈ l.exits, ∀ b, f.block? exit.exiting = some b → ∀ t ∈ b.abnormal, l.contains t = false

section Test

variable {f : Function} {l : NaturalLoop}

theorem orient?_base {iv : InductionVar} {init step base limit : Int} {op : CmpOp} {c : Condition}
    (h : f.orient? iv init step c = some (base, op, limit)) : base = init ∨ base = init + step := by
  have value : ∀ o, f.firstValue? iv init step o = some base → base = init ∨ base = init + step := by
    intro o h
    obtain ⟨n, -, counted⟩ := Option.bind_eq_some_iff.mp h
    dsimp only at counted
    split at counted
    · exact .inl (Option.some.inj counted).symm
    · split at counted
      · exact .inr (Wide.eq_of_check counted)
      · cases counted
  unfold orient? at h
  split at h
  · next base' left =>
      obtain ⟨_, -, same⟩ := Option.map_eq_some_iff.mp h
      cases same
      exact value _ left
  · split at h
    · next base' right =>
        obtain ⟨_, -, same⟩ := Option.map_eq_some_iff.mp h
        cases same
        exact value _ right
    · cases h

/-- When a branch takes the edge that stays in the loop, its condition for that holds. -/
theorem Leaves.stayCondition?_holds {s : ExecState} {target onTrue onFalse : BlockId} {b : Block}
    {cond stay : Condition} (leave : f.Leaves s target) (hb : f.block? s.block = some b)
    (ht : b.terminator = .branch cond onTrue onFalse)
    (hstay : stayCondition? l cond onTrue onFalse = some stay)
    (inside : l.contains target = true) (quiet : ∀ t ∈ b.abnormal, l.contains t = false) :
    stay.lhs = cond.lhs ∧ stay.rhs = cond.rhs ∧ s.index = b.stmts.length ∧
      ∃ x y, s.env.operand cond.lhs = some x ∧ s.env.operand cond.rhs = some y ∧
        ((f.comparisonType? cond.lhs cond.rhs).all ScalarType.isTracked = true →
          stay.op.eval x y = true) := by
  obtain ⟨b', hb', atEnd, taken⟩ := leave
  rw [hb] at hb'
  cases hb'
  rcases taken with selected | raised
  · rw [ht] at selected
    obtain ⟨truth, ⟨x, y, hx, hy, compared⟩, chosen⟩ := selected
    unfold stayCondition? at hstay
    split at hstay
    · next stays leaves =>
        cases hstay
        refine ⟨rfl, rfl, atEnd, x, y, hx, hy, fun tracked => ?_⟩
        cases truth with
        | true => exact (compared tracked).symm
        | false =>
            rw [chosen, if_neg (by decide), leaves] at inside
            cases inside
    · next leaves stays =>
        cases hstay
        refine ⟨rfl, rfl, atEnd, x, y, hx, hy, fun tracked => ?_⟩
        cases truth with
        | true =>
            rw [chosen, if_pos rfl, leaves] at inside
            cases inside
        | false => rw [Condition.inverted, CmpOp.eval_invert, ← compared tracked, Bool.not_false]
    · cases hstay
  · rw [quiet target raised] at inside
    cases inside

variable {config : Config} {block : BlockId} {index k : Nat} {env : Env} {iv : InductionVar}
  {init step base : Int} {start : Option Int} (hf : f.Valid) (uses : f.UsesDominated)
  (consistent : f.Consistent config block index env)
  (update : f.updateOf iv.update iv.phi = (iv.kind, iv.stride)) (hstep : iv.step? = some step)
  (tracked : (f.typeOf iv.phi).isTracked = true)
  (round : RoundValue config (f.typeOf iv.phi) step start k (env iv.phi))
  (starts : ∀ i, start = some i → i = init)

include hf uses consistent update hstep tracked round starts

/-- What is tested has in every round the value that is counted for it. -/
theorem Consistent.firstValue {o : Operand} {x : Int}
    (h : f.firstValue? iv init step o = some base)
    (dominated : ∀ n, o = .name n → f.Dominated n block index) (hx : env.operand o = some x) :
    x = (f.typeOf iv.phi).wrap (base + k * step) ∧
      ∀ ty, f.Typed ty o → ty = f.typeOf iv.phi := by
  have merged : ∀ a, env iv.phi = some a → a = (f.typeOf iv.phi).wrap (init + k * step) := by
    intro a ha
    rcases round with ⟨-, none, -⟩ | ⟨i, hi, value, -⟩
    · rw [ha] at none
      cases none
    · rw [ha, starts i hi] at value
      exact Option.some.inj value
  obtain ⟨n, hn, counted⟩ := Option.bind_eq_some_iff.mp h
  rw [Operand.name?_eq_some] at hn
  subst hn
  obtain ⟨set, same, type⟩ := consistent.stripCopies hf uses (dominated n rfl)
  dsimp only at counted
  split at counted
  · next isPhi =>
      cases counted
      rw [isPhi] at same type
      exact ⟨merged x (same.trans hx), fun ty typed => typed.2.symm.trans type.symm⟩
  · split at counted
    · next isUpdate =>
        obtain ⟨u, hu, behind⟩ := (Option.any_eq_true _ _).mp isUpdate
        obtain ⟨m, named, computed⟩ := consistent.advance hf uses update hstep tracked
        rw [named] at hu
        cases hu
        rw [← eq_of_beq behind] at set same type
        obtain ⟨typePhi, a, v, ha, hv, advances⟩ := computed set
        have value : x = v := Option.some.inj (hx.symm.trans (same.symm.trans hv))
        have sum : base = init + step := Wide.eq_of_check counted
        refine ⟨?_, fun ty typed => typed.2.symm.trans (type.symm.trans typePhi)⟩
        rw [value, advances.1, merged a ha, ScalarType.wrap_wrap_add, sum]
        congr 1
        omega
    · cases counted

/-- The counted comparison holds when a branch takes the edge that stays in the loop. -/
theorem Consistent.orient {stay : Condition} {op : CmpOp} {limit x y : Int}
    (h : f.orient? iv init step stay = some (base, op, limit))
    (check : f.checkComparison stay.lhs stay.rhs = .ok ())
    (dominated : ∀ n, stay.lhs = .name n ∨ stay.rhs = .name n → f.Dominated n block index)
    (hx : env.operand stay.lhs = some x) (hy : env.operand stay.rhs = some y)
    (compared : (f.comparisonType? stay.lhs stay.rhs).all ScalarType.isTracked = true →
      stay.op.eval x y = true) :
    op.eval ((f.typeOf iv.phi).wrap (base + k * step)) limit = true := by
  have value := @Consistent.firstValue f config block index k env iv init step base start hf uses
    consistent update hstep tracked round starts
  -- the comparison is in the type of the merged name
  have followed : ∀ o, (o = stay.lhs ∨ o = stay.rhs) →
      (∀ ty, f.Typed ty o → ty = f.typeOf iv.phi) →
      (f.comparisonType? stay.lhs stay.rhs).all ScalarType.isTracked = true := by
    intro o side typed
    cases type : f.comparisonType? stay.lhs stay.rhs with
    | none => rfl
    | some ty =>
        have both := checkComparison_typed check type
        have same : ty = f.typeOf iv.phi := by
          apply typed
          rcases side with rfl | rfl
          · exact both.1
          · exact both.2
        rw [same]
        exact tracked
  unfold orient? at h
  split at h
  · next base' left =>
      obtain ⟨c, hc, same⟩ := Option.map_eq_some_iff.mp h
      cases same
      obtain ⟨rfl, typed⟩ := value left (fun n hn => dominated n (.inl hn)) hx
      have literal := consistent.literal hf uses hc fun n hn => dominated n (.inr hn)
      rw [hy] at literal
      cases literal
      exact compared (followed _ (.inl rfl) typed)
  · split at h
    · next base' right =>
        obtain ⟨c, hc, same⟩ := Option.map_eq_some_iff.mp h
        cases same
        obtain ⟨rfl, typed⟩ := value right (fun n hn => dominated n (.inr hn)) hy
        have literal := consistent.literal hf uses hc fun n hn => dominated n (.inl hn)
        rw [hx] at literal
        cases literal
        rw [CmpOp.eval_swap]
        exact compared (followed _ (.inr rfl) typed)
    · cases h

end Test

/-- Every round passes the branch of the block, and the loop goes on from there only while the
    counted comparison holds. -/
structure ExitTest (f : Function) (l : NaturalLoop) (iv : InductionVar) (init step : Int)
    (block : BlockId) (base : Int) (op : CmpOp) (limit : Int) : Prop where
  passed : ∀ latch ∈ l.latches, f.OnEveryPath block latch
  inside : l.contains block = true
  branch : ∃ b cond onTrue onFalse stay, f.block? block = some b ∧
    b.terminator = .branch cond onTrue onFalse ∧
    stayCondition? l cond onTrue onFalse = some stay ∧
    f.orient? iv init step stay = some (base, op, limit) ∧ ∀ t ∈ b.abnormal, l.contains t = false

/-- A trip count comes from one of the exits. -/
theorem Valid.tripCount?_eq_some {f : Function} {l : NaturalLoop} {iv : InductionVar} {step : Int}
    {ty : ScalarType} {trips : Nat} (hf : f.Valid) (hl : l ∈ f.loops.loops) (quiet : f.Unraised l)
    (h : f.tripCount? f.dominators l iv step ty = some trips) :
    ∃ init block base op limit, f.literal? iv.init = some init ∧
      f.ExitTest l iv init step block base op limit ∧ tripsBy? ty base step op limit = some trips := by
  unfold tripCount? at h
  split at h
  · cases h
  · next init literal =>
      obtain ⟨exit, hexit, counted⟩ := List.mem_filterMap.mp (List.min?_mem h)
      unfold tripsByExit? at counted
      split at counted
      · next dominating =>
          split at counted
          · next cond onTrue onFalse hterm =>
              obtain ⟨b, hb, ht⟩ := Option.map_eq_some_iff.mp hterm
              obtain ⟨stay, hstay, counted⟩ := Option.bind_eq_some_iff.mp counted
              obtain ⟨⟨base, op, limit⟩, horient, counted⟩ := Option.bind_eq_some_iff.mp counted
              refine ⟨init, exit.exiting, base, op, limit, literal, ⟨?_, ?_, ?_⟩, counted⟩
              · intro latch hlatch
                exact hf.dominates_onEveryPath (List.all_eq_true.mp dominating latch hlatch)
              · exact contains_exiting hl hexit
              · exact ⟨b, cond, onTrue, onFalse, stay, hb, ht, hstay, horient, quiet exit hexit b hb⟩
          · cases counted
      · cases counted

section Exit

variable {f : Function} {config : Config} {l : NaturalLoop} {before : Option ExecState}
  {first s : ExecState} {k : Nat} {phi : Phi} {iv : InductionVar} {init step base limit : Int}
  {block : BlockId} {op : CmpOp} (hf : f.Valid) (uses : f.UsesDominated) (hl : l ∈ f.loops.loops)
  (evolves : f.Evolves l phi iv step) (tracked : (f.typeOf phi.dest).isTracked = true)
  (enters : f.Enters config l before first)
  (starts : ∀ i, first.env phi.dest = some i → i = init)
  (test : f.ExitTest l iv init step block base op limit)

include hf uses hl evolves tracked enters starts test

/-- When control goes on in the loop from the block of the test, the comparison holds. -/
theorem Stays.test_of_leave (stays : f.Stays config l first k s) (here : s.block = block)
    {target : BlockId} (leave : f.Leaves s target) (inside : l.contains target = true) :
    op.eval ((f.typeOf phi.dest).wrap (base + k * step)) limit = true := by
  obtain ⟨b, cond, onTrue, onFalse, stay, hb, ht, hstay, horient, quiet⟩ := test.branch
  rw [← here] at hb
  obtain ⟨left, right, atEnd, x, y, hx, hy, compared⟩ :=
    leave.stayCondition?_holds hb ht hstay inside quiet
  have consistent := (stays.reaches enters.reaches).consistent hf uses
  have round := stays.value hf evolves uses hl tracked enters
  have check := hf.terminators s.block b hb
  rw [ht] at check
  rw [← left, ← right] at compared
  rw [← left] at hx
  rw [← right] at hy
  rw [← evolves.name] at round tracked ⊢
  apply consistent.orient hf uses evolves.update evolves.step tracked round
    (fun i hi => starts i (evolves.name ▸ hi)) horient ?_ ?_ hx hy compared
  · rw [left, right]
    exact check
  · intro n side
    rw [atEnd]
    apply uses.terminator s.block b n hb
    rw [ht]
    rw [left, right] at side
    rcases side with same | same <;> simp [Terminator.usedNames, Terminator.operands, same, Operand.name?]

/-- Where every path has passed the block of the test, it has been passed in the round. -/
theorem Stays.tested (stays : f.Stays config l first k s)
    (needed : ∀ passed, f.Path s.block passed → block ∈ passed) :
    op.eval ((f.typeOf phi.dest).wrap (base + k * step)) limit = true := by
  have started := enters.block_eq hl hf
  -- no path to the header has to pass the test, which the header dominates
  have fresh : ∀ {h : BlockId}, h = l.header → f.Reachable h →
      (∀ passed, f.Path h passed → block ∈ passed) → False := by
    rintro h rfl reached needed
    obtain ⟨passed, way, avoids⟩ := (hf.header_onEveryPath hl test.inside).avoidable reached
    exact avoids (needed passed way)
  induction stays with
  | first =>
      have way := (enters.reaches.consistent hf uses).way
      exact (fresh started way needed).elim
  | stmt _ _ _ ih => exact ih needed
  | @onward k s target t stays leave inside other ht ih =>
      by_cases here : s.block = block
      · exact stays.test_of_leave hf uses hl evolves tracked enters starts test here leave inside
      · apply ih
        intro passed way
        have member := needed (s.block :: passed) (way.step_feeds leave.feeds)
        exact (List.mem_cons.mp member).resolve_left fun same => here same.symm
  | back stays leave ht ih =>
      have reached := (stays.reaches enters.reaches).step (.edge leave ht)
      exact (fresh rfl (reached.consistent hf uses).way needed).elim

/-- Where a round ends and another one follows, the comparison held. -/
theorem Stays.test_of_back (stays : f.Stays config l first k s) (leave : f.Leaves s l.header) :
    op.eval ((f.typeOf phi.dest).wrap (base + k * step)) limit = true := by
  have inside := stays.inside hl (enters.block_eq hl hf)
  have reached := ((stays.reaches enters.reaches).consistent hf uses).way
  have latch := hf.mem_latches_of_feeds hl reached inside leave.feeds
  by_cases here : s.block = block
  · exact stays.test_of_leave hf uses hl evolves tracked enters starts test here leave
      (contains_header hl)
  · apply stays.tested hf uses hl evolves tracked enters starts test
    intro passed way
    exact (test.passed s.block latch passed way).resolve_left fun same => here same.symm

/-- There are no more rounds than counted. -/
theorem Stays.le_of_test (stays : f.Stays config l first k s) {m : Nat}
    (last : (f.typeOf phi.dest).fits (base + m * step) = true)
    (fails : op.eval (base + m * step) limit = false) : k ≤ m := by
  induction stays with
  | first => exact Nat.zero_le _
  | stmt _ _ _ ih => exact ih
  | onward _ _ _ _ _ ih => exact ih
  | @back k s t stays leave ht ih =>
      have holds := stays.test_of_back hf uses hl evolves tracked enters starts test leave
      apply Nat.lt_of_le_of_ne ih
      rintro rfl
      rw [ScalarType.wrap_of_fits last, fails] at holds
      cases holds

omit hf uses hl evolves tracked enters starts in
/-- As many steps as the test is known to count stay in the type. -/
theorem ExitTest.fits_of_le {ty : ScalarType} {j m : Nat} (initial : ty.fits init = true)
    (least : ty.fits base = true) (last : ty.fits (base + m * step) = true) (bound : j ≤ m) :
    ty.fits (init + j * step) = true := by
  obtain ⟨b, cond, onTrue, onFalse, stay, -, -, -, horient, -⟩ := test.branch
  rcases orient?_base horient with rfl | rfl
  · exact ScalarType.fits_between least last bound
  · cases j with
    | zero => simpa using initial
    | succ j =>
        have inner := ScalarType.fits_between least last (Nat.le_of_succ_le bound)
        have sum : init + ((j + 1 : Nat) : Int) * step = init + step + j * step := by
          rw [Int.natCast_add, Int.add_mul]
          omega
        rw [sum]
        exact inner

end Exit

/-- A known trip count bounds the rounds, and as many values as it counts belong to the type. -/
theorem Stays.counted {f : Function} {config : Config} {l : NaturalLoop}
    {before : Option ExecState} {first s : ExecState} {k t : Nat} {phi : Phi} {iv : InductionVar}
    {step : Int} (hf : f.Valid) (uses : f.UsesDominated) (hl : l ∈ f.loops.loops)
    (evolves : f.Evolves l phi iv step) (tracked : (f.typeOf phi.dest).isTracked = true)
    (enters : f.Enters config l before first) (quiet : f.Unraised l) (moves : step ≠ 0)
    (counts : f.tripCount? f.dominators l iv step (f.typeOf phi.dest) = some t)
    (stays : f.Stays config l first k s) :
    k + 1 ≤ t ∧ ∀ i, first.env phi.dest = some i → ∀ j < t,
      (f.typeOf phi.dest).fits (i + j * step) = true := by
  obtain ⟨start, block, base, op, limit, literal, test, counts⟩ :=
    hf.tripCount?_eq_some hl quiet counts
  obtain ⟨m, rfl, least, last, fails⟩ := tripsBy?_eq_some moves counts
  have starts : ∀ i, first.env phi.dest = some i → i = start := fun i hi =>
    enters.eq_literal hf evolves uses hl literal hi
  refine ⟨Nat.succ_le_succ
    (stays.le_of_test hf uses hl evolves tracked enters starts test last fails), ?_⟩
  intro i hi j le
  have initial := (enters.reaches.consistent hf uses).typed phi.dest i hi tracked
  rw [starts i hi] at initial ⊢
  exact test.fits_of_le initial least last (Nat.le_of_lt_succ le)

end Function

/-- The evolutions that are read off definitions are true. In every round of a loop the name has its
    first value plus the step for each round before, wrapped to its type. No sum leaves the type if
    the evolution says so because overflow is undefined, or because of a trip count. There are no more
    rounds than the trip count, if no block that leaves the loop raises an exception into it. -/
theorem EvolutionOracle.induction_holds {f : Function} {config : Config} {l : NaturalLoop}
    {name : NameId} {ev : Evolution} {before : Option ExecState} {first s : ExecState} {k : Nat}
    (valid : f.validate = .ok ()) (uses : f.UsesDominated) (hl : l ∈ f.loops.loops)
    (tracked : (f.typeOf name).isTracked = true)
    (hev : EvolutionOracle.induction config.strictOverflow f f.dominators l name = some ev)
    (enters : f.Enters config l before first) (stays : f.Stays config l first k s) :
    (∀ origin i, before = some origin → origin.env.operand ev.init = some i →
      s.env name = some ((f.typeOf name).wrap (i + k * ev.step)) ∧
      (ev.noWrap = true →
        f.Unraised l ∨ config.strictOverflow = true ∧ (f.typeOf name).overflowUndefined = true →
        (f.typeOf name).fits (i + k * ev.step) = true)) ∧
    (f.Unraised l → ∀ trips, ev.tripCount = some trips → k + 1 ≤ trips) := by
  have hf := Function.valid_of_validate valid
  obtain ⟨phi, iv, evolves, rfl, init, trips, noWrap, -⟩ := hf.evolution?_eq_some hev
  have round := stays.value hf evolves uses hl tracked enters
  have counted : ∀ t, f.Unraised l → ev.tripCount = some t → k + 1 ≤ t ∧
      ∀ i, first.env phi.dest = some i → (f.typeOf phi.dest).fits (i + k * ev.step) = true := by
    intro t quiet some_
    rw [trips] at some_
    split at some_
    · cases some_
    · next moves =>
        obtain ⟨bound, fits⟩ :=
          stays.counted hf uses hl evolves tracked enters quiet moves some_
        exact ⟨bound, fun i hi => fits i hi k bound⟩
  constructor
  · rintro origin i rfl hi
    rw [init] at hi
    have start := (enters.first_value hf evolves hl).trans hi
    rcases round with ⟨none, -, -⟩ | ⟨i', hi', value, exact⟩
    · rw [start] at none
      cases none
    · cases hi'.symm.trans start
      refine ⟨value, fun wraps reason => ?_⟩
      by_cases strict : config.strictOverflow = true ∧ (f.typeOf phi.dest).overflowUndefined = true
      · exact exact strict.1 strict.2
      · rw [noWrap, Bool.or_eq_true, Bool.and_eq_true] at wraps
        obtain ⟨t, ht⟩ := Option.isSome_iff_exists.mp (wraps.resolve_left strict)
        exact (counted t (reason.resolve_right strict) ht).2 i start
  · intro quiet t ht
    exact (counted t quiet ht).1

/-- A node before a loop, its header, its latch and a node behind it. -/
def headTested : Graph := .ofEdges 4 [(0, 1), (1, 2), (1, 3), (2, 1)]

/-- The loop of the graph. -/
def headTestedLoop : NaturalLoop where
  header := 1
  body := ⟨[1, 2], by decide⟩
  latches := [2]
  preheader := some 0
  exits := [⟨1, 3⟩]
  depth := 0
  parent := none

theorem headTested_dominators : DominatorTree.ofGraph headTested 0 =
    ⟨0, #[some [], some [0], some [1, 0], some [1, 0]]⟩ := by
  have without : DominatorTree.reachedWithout headTested 0 =
      #[#[false, false, false, false], #[true, false, false, false], #[true, true, false, true],
        #[true, true, true, false]] := by
    cbv
  have reached : Graph.mark headTested.size (headTested.postorder 0) =
      #[true, true, true, true] := by
    cbv
  rw [DominatorTree.ofGraph_of_stages #[[], [0], [0, 1], [0, 1]] without rfl reached]
  cbv

theorem headTested_loops : (LoopForest.ofGraph headTested (.ofGraph headTested 0)).loops =
    [headTestedLoop] := by
  rw [headTested_dominators]
  cbv

/-- Counts to two, with the test in front of the step. -/
def countToTwo : Function where
  name := "count"
  names :=
    [ ⟨.int ⟨8, eight_bits⟩ .unsigned, .defined⟩,
      ⟨.int ⟨8, eight_bits⟩ .unsigned, .defined⟩ ]
  blocks :=
    [ .ofTerminator (.jump 1),
      ⟨[⟨0, [⟨0, .const 0⟩, ⟨2, .name 1⟩]⟩], [], .branch ⟨.lt, .name 0, .const 2⟩ 2 3, [], false⟩,
      ⟨[], [.assign 1 (.binary .add (.name 0) (.const 1))], .jump 1, [], false⟩,
      .ofTerminator (.return (some (.name 0))) ]

theorem countToTwo_usesDominated : countToTwo.UsesDominated :=
  Function.usesDominated_of_above [[], [0], [0, 1], [0, 1]] (by decide) (by decide)

/-- The header is executed at most three times, and after one round the counter is one. -/
theorem induction_holds_countToTwo :
    ∃ ev first s, EvolutionOracle.induction true countToTwo countToTwo.dominators headTestedLoop 0 =
        some ev ∧ ev.tripCount = some 3 ∧ countToTwo.Unraised headTestedLoop ∧
      countToTwo.Enters {} headTestedLoop (some ⟨0, 0, Env.empty⟩) first ∧
      countToTwo.Stays {} headTestedLoop first 1 s ∧ s.env 0 = some 1 ∧ 1 + 1 ≤ 3 := by
  have dominators : countToTwo.dominators = DominatorTree.ofGraph headTested 0 := rfl
  have loops : countToTwo.loops.loops = [headTestedLoop] := headTested_loops
  have known : EvolutionOracle.induction true countToTwo countToTwo.dominators headTestedLoop 0 =
      some ⟨.const 0, 1, .increasing, true, some 3⟩ := by
    rw [dominators, headTested_dominators]
    decide +kernel
  have quiet : countToTwo.Unraised headTestedLoop := by
    intro exit hexit b hb t raised
    rw [List.mem_singleton.mp hexit] at hb
    cases hb
    cases raised
  have start : countToTwo.Reaches {} ⟨0, 0, Env.empty⟩ := by
    refine .start fun n => ?_
    rcases n with _ | _ | n
    · rfl
    · rfl
    · rfl
  let first : Env := countToTwo.blocks[1].mergeFrom 0 Env.empty
  let inside : Env := countToTwo.blocks[2].mergeFrom 1 first
  let second : Env := countToTwo.blocks[1].mergeFrom 2 (inside.set 1 1)
  have enters : countToTwo.Enters {} headTestedLoop (some ⟨0, 0, Env.empty⟩) ⟨1, 0, first⟩ :=
    .edge start rfl ⟨_, rfl, rfl, .inl rfl⟩ rfl rfl
  have tested : countToTwo.Stays {} headTestedLoop ⟨1, 0, first⟩ 0 ⟨2, 0, inside⟩ :=
    .onward .first ⟨_, rfl, rfl, .inl ⟨true, ⟨0, 2, rfl, rfl, fun _ => rfl⟩, rfl⟩⟩ rfl (by decide) rfl
  have counted : countToTwo.Stays {} headTestedLoop ⟨1, 0, first⟩ 0 ⟨2, 1, inside.set 1 1⟩ :=
    .stmt tested rfl (.assign ⟨0, 1, rfl, rfl, fun _ => by decide⟩)
  have again : countToTwo.Stays {} headTestedLoop ⟨1, 0, first⟩ 1 ⟨1, 0, second⟩ :=
    .back counted ⟨_, rfl, rfl, .inl rfl⟩ rfl
  have holds := EvolutionOracle.induction_holds rfl countToTwo_usesDominated
    (by rw [loops]; exact List.mem_singleton.mpr rfl) (by decide) known enters again
  exact ⟨_, _, _, known, rfl, quiet, enters, again, (holds.1 _ 0 rfl rfl).1, holds.2 quiet 3 rfl⟩

/-- A one-bit counter. The block that tests it may raise an exception into the loop. -/
def countWithException : Function where
  name := "raise"
  names :=
    [ ⟨.int ⟨1, one_bit⟩ .unsigned, .defined⟩,
      ⟨.int ⟨1, one_bit⟩ .unsigned, .defined⟩ ]
  blocks :=
    [ .ofTerminator (.jump 1),
      ⟨[⟨0, [⟨0, .const 0⟩, ⟨2, .name 1⟩]⟩], [.assign 1 (.binary .add (.name 0) (.const 1))],
        .branch ⟨.lt, .name 0, .const 1⟩ 2 3, [2], false⟩,
      .ofTerminator (.jump 1),
      .ofTerminator (.return (some (.name 0))) ]

theorem countWithException_usesDominated : countWithException.UsesDominated :=
  Function.usesDominated_of_above [[], [0], [0, 1], [0, 1]] (by decide) (by decide)

/-- The exception goes on with the loop when the test has failed. The header is executed a third
    time, where two times were counted, and the counter has wrapped. -/
theorem induction_exceeded_countWithException :
    ∃ ev first s, countWithException.validate = .ok () ∧ countWithException.UsesDominated ∧
      headTestedLoop ∈ countWithException.loops.loops ∧
      EvolutionOracle.induction true countWithException countWithException.dominators
        headTestedLoop 0 = some ev ∧ ev.init = .const 0 ∧ ev.step = 1 ∧
      countWithException.Enters {} headTestedLoop (some ⟨0, 0, Env.empty⟩) first ∧
      countWithException.Stays {} headTestedLoop first 2 s ∧ s.block = 1 ∧ s.index = 0 ∧
      ev.tripCount = some 2 ∧ ¬ 2 + 1 ≤ 2 ∧
      ev.noWrap = true ∧ (countWithException.typeOf 0).fits (0 + 2 * 1) = false := by
  have dominators : countWithException.dominators = DominatorTree.ofGraph headTested 0 := rfl
  have loops : countWithException.loops.loops = [headTestedLoop] := headTested_loops
  have known : EvolutionOracle.induction true countWithException countWithException.dominators
      headTestedLoop 0 = some ⟨.const 0, 1, .increasing, true, some 2⟩ := by
    rw [dominators, headTested_dominators]
    decide +kernel
  have start : countWithException.Reaches {} ⟨0, 0, Env.empty⟩ := by
    refine .start fun n => ?_
    rcases n with _ | _ | n
    · rfl
    · rfl
    · rfl
  let zero : Env := countWithException.blocks[1].mergeFrom 0 Env.empty
  let rises : Env := countWithException.blocks[2].mergeFrom 1 (zero.set 1 1)
  let one : Env := countWithException.blocks[1].mergeFrom 2 rises
  let wraps : Env := countWithException.blocks[2].mergeFrom 1 (one.set 1 0)
  have enters : countWithException.Enters {} headTestedLoop (some ⟨0, 0, Env.empty⟩) ⟨1, 0, zero⟩ :=
    .edge start rfl ⟨_, rfl, rfl, .inl rfl⟩ rfl rfl
  have stepped : countWithException.Stays {} headTestedLoop ⟨1, 0, zero⟩ 0 ⟨1, 1, zero.set 1 1⟩ :=
    .stmt .first rfl (.assign ⟨0, 1, rfl, rfl, fun _ => by decide⟩)
  have tested : countWithException.Stays {} headTestedLoop ⟨1, 0, zero⟩ 0 ⟨2, 0, rises⟩ :=
    .onward stepped ⟨_, rfl, rfl, .inl ⟨true, ⟨0, 1, rfl, rfl, fun _ => rfl⟩, rfl⟩⟩ rfl
      (by decide) rfl
  have back : countWithException.Stays {} headTestedLoop ⟨1, 0, zero⟩ 1 ⟨1, 0, one⟩ :=
    .back tested ⟨_, rfl, rfl, .inl rfl⟩ rfl
  have wrapped : countWithException.Stays {} headTestedLoop ⟨1, 0, zero⟩ 1 ⟨1, 1, one.set 1 0⟩ :=
    .stmt back rfl (.assign ⟨1, 1, rfl, rfl, fun _ => by decide⟩)
  have raised : countWithException.Stays {} headTestedLoop ⟨1, 0, zero⟩ 1 ⟨2, 0, wraps⟩ :=
    .onward wrapped ⟨_, rfl, rfl, .inr (by decide)⟩ rfl (by decide) rfl
  have again := Function.Stays.back (t := countWithException.blocks[1]) raised
    ⟨_, rfl, rfl, .inl rfl⟩ rfl
  exact ⟨_, _, _, rfl, countWithException_usesDominated, by rw [loops]; exact List.mem_singleton.mpr rfl,
    known, rfl, rfl, enters, again, rfl, rfl, rfl, by decide, rfl, by decide⟩

end RangeFlow
