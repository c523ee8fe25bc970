import RangeFlow.Proofs.Assertions
import RangeFlow.Proofs.BackEdges
import RangeFlow.Proofs.Comparisons
import RangeFlow.Proofs.KnownValues
import RangeFlow.Proofs.SwitchTargets

/-! # Ranges hold all values

An execution stays in blocks that can be entered and on edges that can be taken, and the values it
gives to names lie in their ranges.
-/

namespace RangeFlow

theorem Extent.Proper.sided {ty : ScalarType} {e : Extent} (h : e.Proper ty) : e.Sided ty := by
  cases h with
  | undefined | varying => trivial
  | inside low high => exact ⟨low, high⟩
  | outside low high _ => exact ⟨Bound.isLower_const.mpr low, Bound.isUpper_const.mpr high⟩
  | apartFrom n offset => exact ⟨⟨trivial, nofun⟩, trivial, nofun⟩

namespace Query

variable {query : Query} {env : NameId → Int} {index : Operand} {cases : List SwitchCase}
  {default target : BlockId} {v : Int}

/-- An index that has a value is literal, or between or apart from two numbers, or its values are
    not known. -/
theorem knowsIndex_or_missesIndex
    (proper : ∀ n, index = .name n → (query.rangeOf n).Proper (query.typeOf n))
    (hv : v ∈ query.indexValues env index) : query.KnowsIndex index ∨ query.MissesIndex index := by
  cases index with
  | const c => exact .inl trivial
  | name n =>
      cases bounded : (query.rangeOf n).isBounded with
      | false => exact .inr (.inl bounded)
      | true =>
          cases plain : (query.rangeOf n).isSymbolic with
          | true => exact .inr (.inr plain)
          | false =>
              refine .inl ⟨bounded, plain, (proper n rfl).sided, fun range_ lo hi ends => ?_⟩
              -- the value lies between the ends
              have within := ValueRange.Holds.within_constBounds? hv.2 range_ ends
              exact Int.le_trans within.1 within.2

/-- A decided switch goes where the value of its index selects. -/
theorem selectedTarget_of_switchTarget? (ordered : OrderedCases cases)
    (proper : ∀ n, index = .name n → (query.rangeOf n).Proper (query.typeOf n))
    (hv : v ∈ query.indexValues env index)
    (decided : query.switchTarget? index cases default = some target) :
    selectedTarget cases default v = target := by
  rcases knowsIndex_or_missesIndex proper hv with known | missed
  · obtain ⟨intervals, found, order, values⟩ := exists_indexIntervals env known
    obtain ⟨p, member, within⟩ := (values v).mp hv
    refine ((switchTarget?_eq_some_iff found).mp decided _).mp ⟨p, member, ?_⟩
    exact (mem_intervalTargets_filter_iff ordered (order p member)).mpr ⟨v, within, rfl⟩
  · rw [switchTarget?, indexIntervals?_eq_none missed] at decided
    cases decided

end Query

namespace Function

variable {f : Function} {config : Config}

/-- Only parameters have values at the start. -/
theorem Initial.param {env : Env} (init : f.Initial config env) {n : NameId} {v : Int}
    (hv : env n = some v) : ∃ info index nonnull, f.names[n]? = some info ∧
      info.origin = .param index nonnull := by
  have origin := init n
  split at origin
  · next index nonnull found =>
      obtain ⟨info, listed, param⟩ := Option.map_eq_some_iff.mp found
      exact ⟨info, index, nonnull, listed, param⟩
  · exact absurd (hv.symm.trans origin) nofun

end Function

/-- A parameter that is no pointer may hold any value at the start. -/
theorem RangeTable.initial_param {t : RangeTable} {n : NameId} {index : Nat} {nonnull : Bool}
    (number : (t.typeOf n).isPointer = false)
    (param : (t.names[n]?).map NameInfo.origin = some (.param index nonnull)) :
    (t.initial n).isVarying = true := by
  unfold RangeTable.initial
  dsimp only
  split
  · rfl
  · rw [param]
    dsimp only
    rw [if_neg (by simp [number])]
    rfl

namespace Engine

variable {en : Engine} {s : EngineState} {rank : BlockId → Nat} {x : ExecState}

/-- What a run leaves behind that comes to an end by itself. -/
structure AtRest (en : Engine) (s : EngineState) : Prop where
  entry : s.blockExecutable en.f.entry = true
  targets : ∀ id e, en.f.edge? id = some e → s.edgeExecutable id = true →
    s.blockExecutable e.dst = true
  stable : ∀ site, s.blockExecutable site.block = true → en.Stable (fun _ => True) s site
  /-- Edges that need no decision can be taken. -/
  opened : en.Opened s
  fitting : s.table.Fitting en.f en.config
  bare : ∀ n, (s.table.rangeOf n).Bare
  /-- Edges that lead back to dominators of their sources are marked. -/
  back : ∀ id e, en.f.edge? id = some e → en.f.Reachable e.src → en.f.OnEveryPath e.dst e.src →
    en.isBackEdge id = true
  /-- What may hold any value from the start may still do so. -/
  given : ∀ n, ((RangeTable.ofFunction en.f en.config).rangeOf n).isVarying = true →
    (s.table.rangeOf n).isVarying = true

/-- Nothing is known about the result of a comparison that can run, or it is what the ranges tell
    now. -/
def Current (en : Engine) (s : EngineState) : Prop :=
  ∀ block index dest op lhs rhs, s.blockExecutable block = true →
    en.f.stmtAt? block index = some (.assign dest (.compare op lhs rhs)) →
    (s.table.rangeOf dest).isVarying = true ∨
      s.table.rangeOf dest = s.table.query.compareResult op lhs rhs (s.table.typeOf dest)

/-- What a run has found out is true of a state of an execution: its block can be entered, and the
    names that are set on every way to it have values as the table says. -/
structure TrueOf (en : Engine) (s : EngineState) (rank : BlockId → Nat) (x : ExecState) : Prop where
  executable : s.blockExecutable x.block = true
  known : ∃ known, s.table.Agrees en.f rank x.env known ∧
    ∀ n, en.f.Dominated n x.block x.index → (x.env n).isSome = true → known n

/-- What evolutions tell about the merges of a block is true of the values that these take when
    control comes there: such a value lies on the way from the first one, which has not changed
    since, to the last one. -/
def OnCourse (en : Engine) (rank : BlockId → Nat) (x : ExecState) (target : BlockId) : Prop :=
  ∀ index phi ev t v, en.config.useEvolution = true → en.f.phiAt? target index = some phi →
    en.evolutionAt? target phi.dest = some ev → ev.noWrap = true → en.f.block? target = some t →
    t.mergeFrom x.block x.env phi.dest = some v →
    (∃ o ∈ phi.operands, o.value = ev.init) ∧ (∃ i, x.env.operand ev.init = some i) ∧
    (∀ n, ev.init = .name n → en.f.Dominated n x.block x.index ∧
      en.f.Precedes rank n phi.dest) ∧
    ev.direction = .ofStep ev.step ∧
    ev.LastFits x.env.total (en.f.runType en.config phi.dest) ∧ ev.OnWay x.env.total v

variable (hf : en.f.Valid) (uses : en.f.UsesDominated) (integral : en.f.Integral)
  (limits : en.f.LimitsTyped) (unary : en.f.UnaryTyped) (ranked : en.f.RankedBy rank)
  (rest : en.AtRest s) (current : en.Current s)

section State

variable {known : NameId → Prop} {block : BlockId} {index : Nat} {env : Env}
  (consistent : en.f.Consistent en.config block index env)
  (agrees : s.table.Agrees en.f rank env known)
  (dominated : ∀ n, en.f.Dominated n block index → (env n).isSome = true → known n)

include rest consistent in
/-- All values are values of their types. -/
theorem AtRest.fits (n : NameId) (tracked : (s.table.typeOf n).isTracked = true) :
    (s.table.typeOf n).fits (env.total n) = true := by
  cases hv : env n with
  | none =>
      rw [Env.total, hv]
      exact (s.table.typeOf n).fits_zero
  | some v =>
      rw [Env.total_eq hv]
      by_cases exists_ : n < en.f.nameCount
      · have admits := consistent.typed n v hv
        rw [RangeTable.typeOf_eq rest.fitting.names exists_] at tracked ⊢
        rw [effectiveType_isTracked] at tracked
        rw [effectiveType_fits]
        exact admits tracked
      · have untracked : (s.table.typeOf n).isTracked = false := by
          have none_ : en.f.names[n]? = none := List.getElem?_eq_none (Nat.le_of_not_lt exists_)
          simp only [RangeTable.typeOf, rest.fitting.names, RangeTable.ofFunction,
            List.getElem?_map, none_, Option.map_none, Option.getD_none]
          rfl
        rw [untracked] at tracked
        cases tracked

include rest consistent agrees in
theorem AtRest.knows : s.table.query.Knows known env :=
  RangeTable.Agrees.knows agrees (rest.fits consistent)

include rest current in
/-- The range of a name that a statement in a block that can be entered sets is up to date. -/
theorem AtRest.assigned {dest : NameId} {rhs : Rhs} (executable : s.blockExecutable block = true)
    (hstmt : en.f.stmtAt? block index = some (.assign dest rhs)) :
    s.table.rangeOf dest = .varying ∨ s.table.rangeOf dest =
      s.table.query.rhsResult (s.table.typeOf dest) rhs en.config.nonCallExceptions := by
  refine Or.imp (rest.bare dest).eq_varying id ?_
  by_cases comparison : ∃ op lhs rhs', rhs = .compare op lhs rhs'
  · obtain ⟨op, lhs, rhs', rfl⟩ := comparison
    exact current block index dest op lhs rhs' executable hstmt
  · refine (rest.stable (.stmt block index) executable dest rhs hstmt).imp id ?_
    rintro ⟨before, -, names, ranges, stored⟩
    rw [stored]
    exact Query.rhsResult_congr (fun op lhs rhs' same => comparison ⟨op, lhs, rhs', same⟩)
      (funext (RangeTable.typeOf_eq_of_names names)) ranges

include hf uses integral limits unary ranked rest current consistent agrees dominated in
/-- The range of a name describes the value that a statement gives to it. -/
theorem AtRest.assigned_describes {dest : NameId} {rhs : Rhs} {v : Int}
    (executable : s.blockExecutable block = true)
    (hstmt : en.f.stmtAt? block index = some (.assign dest rhs))
    (evaluates : en.f.Evaluates en.config env dest v rhs)
    (asserted : ∀ subject predicate, rhs = .assert subject predicate → predicate.Holds env v) :
    s.table.query.Describes (fun m => known m ∧ en.f.Precedes rank m dest) env
      (s.table.typeOf dest) (s.table.rangeOf dest) v := by
  rcases rest.assigned current executable hstmt with unknown | computed
  · rw [unknown]
    exact Query.describes_varying
  · rw [computed]
    refine rest.fitting.rhsResult_describes integral (rest.knows consistent agrees) hf limits unary
      hstmt evaluates asserted (fun n hn hasValue => ?_) _
    have set := uses.stmt block index _ n hstmt hn
    have hknown := dominated n set hasValue
    have before : en.f.Precedes rank n dest :=
      ranked.precedes consistent.way set (hf.place?_stmt hstmt rfl) (.inl ⟨rfl, Nat.lt_succ_self _⟩)
    have tracked : (s.table.typeOf n).isTracked = true :=
      ScalarType.isTracked_of_isIntegral
        (rest.fitting.isIntegral integral (hf.stmt_usedNames_lt hstmt hn))
    exact ⟨hknown, ⟨hknown, before⟩,
      (agrees n hknown tracked).names.mono fun m hm => ⟨hm.1, hm.2.trans before⟩⟩

include ranked agrees dominated in
/-- The value of an assignment becomes known, and what is set after it is forgotten. -/
theorem TrueOf.assign {dest : NameId} {v : Int} (executable : s.blockExecutable block = true)
    (reached : en.f.Reachable block) (place : en.f.place? dest = some (block, index + 1))
    (before : ∀ n, n ≠ dest → en.f.Dominated n block (index + 1) → en.f.Dominated n block index)
    (describes : s.table.query.Describes (fun m => known m ∧ en.f.Precedes rank m dest) env
      (s.table.typeOf dest) (s.table.rangeOf dest) v) :
    en.TrueOf s rank ⟨block, index + 1, env.set dest v⟩ := by
  refine ⟨executable, RangeTable.Renewed en.f rank known (· = dest) (env.set dest v),
    agrees.renew (q := (block, index + 1)) ?_ ?_ ?_, ?_⟩
  · rintro _ rfl
    exact place
  · exact fun n other => Env.set_of_ne env v other
  · rintro _ rfl - -
    rw [Env.total_eq (Env.set_self env _ v)]
    exact describes
  · intro n set (hasValue : (env.set dest v n).isSome = true)
    by_cases same : n = dest
    · exact .inl ⟨same, hasValue⟩
    · have set' := before n same set
      rw [Env.set_of_ne env v same] at hasValue
      refine .inr ⟨dominated n set' hasValue, same, ?_⟩
      rintro _ rfl
      exact ranked.not_precedes reached set' place (Nat.le_succ index)

include hf uses integral rest consistent agrees dominated in
/-- A decided terminator goes where an execution goes. -/
theorem AtRest.target_eq {b : Block} {target decided : BlockId}
    (hb : en.f.block? block = some b) (atEnd : index = b.stmts.length)
    (selects : en.f.Selects env target b.terminator)
    (decides : decidedTarget? s.table.query b.terminator = some decided) : target = decided := by
  have read : ∀ n ∈ b.terminator.usedNames, (env n).isSome = true → known n := by
    intro n hn hasValue
    exact dominated n (atEnd ▸ uses.terminator block b n hb hn) hasValue
  have knows := rest.knows consistent agrees
  have checked := hf.terminators block b hb
  cases ends : b.terminator with
  | jump | «return» | unreachable =>
      rw [ends] at decides
      cases decides
  | branch cond onTrue onFalse =>
      rw [ends] at decides selects read checked
      obtain ⟨truth, compares, rfl⟩ := selects
      obtain ⟨x, y, hx, hy, -⟩ := id compares
      have known_ : ∀ n, cond.lhs = .name n ∨ cond.rhs = .name n → known n := by
        rintro n (side | side)
        · rw [side] at hx
          refine read n ?_ (Option.isSome_of_eq_some hx)
          simp [Terminator.usedNames, Terminator.operands, Operand.name?, side]
        · rw [side] at hy
          refine read n ?_ (Option.isSome_of_eq_some hy)
          simp [Terminator.usedNames, Terminator.operands, Operand.name?, side]
      have right : ∀ answer, (s.table.query.decideCondition cond.op cond.lhs cond.rhs false).value =
          some answer → answer = truth := fun answer =>
        rest.fitting.decided integral knows checked compares known_
      simp only [decidedTarget?] at decides
      split at decides
      · next sure => rw [← right true (by rw [sure])]; exact Option.some.inj decides
      · next sure => rw [← right false (by rw [sure])]; exact Option.some.inj decides
      · cases decides
  | switch index cases default =>
      rw [ends] at decides selects read checked
      obtain ⟨v, hv, rfl⟩ := selects
      have exists_ : ∀ n, index = .name n → n < en.f.nameCount := by
        rintro n rfl
        refine hf.terminator_usedNames_lt hb ?_
        simp [ends, Terminator.usedNames, Terminator.operands, Operand.name?]
      have tracked : ∀ n, index = .name n → (s.table.typeOf n).isTracked = true := fun n hn =>
        ScalarType.isTracked_of_isIntegral (rest.fitting.isIntegral integral (exists_ n hn))
      have possible : v ∈ s.table.query.indexValues env.total index := by
        cases index with
        | const c =>
            cases hv
            rfl
        | name n =>
            have hn : known n := by
              refine read n ?_ (Option.isSome_of_eq_some hv)
              simp [Terminator.usedNames, Terminator.operands, Operand.name?]
            rw [← Env.total_eq hv]
            exact ⟨knows.fits n (tracked n rfl), (knows.describes n hn (tracked n rfl)).holds⟩
      exact Query.selectedTarget_of_switchTarget? (hf.orderedCases hb ends)
        (fun n hn => rest.fitting.proper n (tracked n hn)) possible decides

include hf uses integral rest consistent agrees dominated in
/-- An execution leaves a block over an edge that can be taken. -/
theorem AtRest.taken {target : BlockId} (executable : s.blockExecutable block = true)
    (leave : en.f.Leaves ⟨block, index, env⟩ target) :
    ∃ id, en.f.findEdge? block target = some id ∧ s.edgeExecutable id = true := by
  obtain ⟨b, hb, -, member⟩ := leave.mem_targets
  obtain ⟨id, found⟩ := hf.findEdge?_target hb member
  refine ⟨id, found, ?_⟩
  obtain ⟨e, he, rfl, rfl⟩ := Function.findEdge?_eq_some found
  have opened : (e.isAbnormal || !isConditional b.terminator) = true →
      s.edgeExecutable id = true := rest.opened id e b he hb executable
  obtain ⟨b', hb', atEnd, selected | raised⟩ := leave
  all_goals cases hb.symm.trans hb'
  · by_cases conditional : isConditional b.terminator = true
    · rcases rest.stable (.terminator e.src) executable b hb conditional with
        all | ⟨decided, taken, decides, found', taken_⟩
      · exact all id (Function.mem_succEdges.mpr ⟨e, he, rfl⟩)
      · have same := rest.target_eq hf uses integral consistent agrees dominated hb atEnd selected
          decides
        rw [same, found'] at found
        cases found
        exact taken_
    · exact opened (by simp [conditional])
  · obtain ⟨b', _, flags, hb', -, out, same⟩ :=
      Function.mem_edges.mp (Function.mem_edges_of_edge? he)
    cases hb.symm.trans hb'
    refine opened ?_
    rw [Edge.isAbnormal, same]
    simp [Block.abnormal_of_mem out raised]

end State

include hf uses integral limits unary ranked rest current in
/-- A statement keeps what has been found out true. -/
theorem TrueOf.stmt_step {block : BlockId} {index : Nat} {env env' : Env} {stmt : Stmt}
    (h : en.TrueOf s rank ⟨block, index, env⟩)
    (consistent : en.f.Consistent en.config block index env)
    (hstmt : en.f.stmtAt? block index = some stmt)
    (asserted : en.f.Asserted ⟨block, index, env⟩) (run : en.f.Runs en.config env stmt env') :
    en.TrueOf s rank ⟨block, index + 1, env'⟩ := by
  obtain ⟨executable, known, agrees, dominated⟩ := h
  have before : ∀ n, stmt.dest? ≠ some n → en.f.Dominated n block (index + 1) →
      en.f.Dominated n block index := fun n other => Function.dominated_before_stmt hstmt other
  cases run with
  | @assign dest rhs v evaluates =>
      refine .assign ranked agrees dominated executable consistent.way
        (hf.place?_stmt hstmt rfl) (fun n other => before n ?_) ?_
      · exact fun same => other (Option.some.inj same).symm
      · refine rest.assigned_describes hf uses integral limits unary ranked current consistent agrees
          dominated executable hstmt evaluates ?_
        rintro subject predicate rfl
        exact asserted dest subject predicate hstmt v evaluates
  | store _ _ _ => exact ⟨executable, known, agrees, fun n set => dominated n (before n nofun set)⟩
  | nop => exact ⟨executable, known, agrees, fun n set => dominated n (before n nofun set)⟩

/-- A merge that takes a value has an operand for the predecessor. -/
theorem exists_merged {f : Function} {target p : BlockId} {t : Block} {env : Env} {n : NameId}
    {v : Int} (ht : f.block? target = some t)
    (sets : ∃ j phi, f.phiAt? target j = some phi ∧ phi.dest = n)
    (hv : t.mergeFrom p env n = some v) :
    ∃ j phi o, f.phiAt? target j = some phi ∧ phi.dest = n ∧ o ∈ phi.operands ∧
      o.predecessor = p ∧ env.operand o.value = some v := by
  unfold Block.mergeFrom at hv
  split at hv
  · next phi found =>
      obtain ⟨j, hj⟩ := List.mem_iff_getElem?.mp (List.mem_of_find?_eq_some found)
      obtain ⟨value, hvalue, hv⟩ := Option.bind_eq_some_iff.mp hv
      obtain ⟨o, ho, rfl⟩ := Option.map_eq_some_iff.mp hvalue
      refine ⟨j, phi, o, Function.phiAt?_eq_some.mpr ⟨t, ht, hj⟩, ?_, List.mem_of_find?_eq_some ho,
        ?_, hv⟩
      · simpa using List.find?_some found
      · simpa using List.find?_some ho
  · next missing =>
      obtain ⟨j, phi, hphi, same⟩ := sets
      obtain ⟨t', ht', hj⟩ := Function.phiAt?_eq_some.mp hphi
      cases ht.symm.trans ht'
      exact absurd (beq_iff_eq.mpr same)
        (List.find?_eq_none.mp missing phi (List.mem_of_getElem? hj))

include hf uses integral ranked rest in
/-- The range of a merge describes the value that it takes when control comes over an edge that can
    be taken. -/
theorem AtRest.merged_describes {x : ExecState} {known : NameId → Prop} {target : BlockId}
    {id : EdgeId} {t : Block} {phi : Phi} {j : Nat} {o : PhiOperand} {v : Int}
    (consistent : en.f.Consistent en.config x.block x.index x.env)
    (agrees : s.table.Agrees en.f rank x.env known)
    (dominated : ∀ n, en.f.Dominated n x.block x.index → (x.env n).isSome = true → known n)
    (leave : en.f.Leaves x target) (found : en.f.findEdge? x.block target = some id)
    (taken : s.edgeExecutable id = true) (ht : en.f.block? target = some t)
    (course : en.OnCourse rank x target) (hphi : en.f.phiAt? target j = some phi)
    (ho : o ∈ phi.operands) (comes : o.predecessor = x.block)
    (value : x.env.operand o.value = some v)
    (merges : t.mergeFrom x.block x.env phi.dest = some v) :
    s.table.query.Describes (fun m => known m ∧ en.f.Precedes rank m phi.dest) x.env
      (s.table.typeOf phi.dest) (s.table.rangeOf phi.dest) v := by
  have knows := rest.knows consistent agrees
  have exists_ := hf.phi_dest_lt hphi
  have isIntegral := rest.fitting.isIntegral integral exists_
  have tracked := ScalarType.isTracked_of_isIntegral isIntegral
  have typed := RangeTable.phi_typed rest.fitting.names hf hphi tracked
  have place := hf.place?_phi hphi
  obtain ⟨e, he, src, dst⟩ := Function.findEdge?_eq_some found
  have executable : s.blockExecutable target = true := dst ▸ rest.targets id e he taken
  have after := consistent.edge_step hf uses leave ht
  have fits : (s.table.typeOf phi.dest).fits v = true := by
    have := rest.fits after phi.dest tracked
    rwa [Env.total_eq merges] at this
  obtain ⟨b, hb, atEnd, member⟩ := leave.mem_targets
  refine (rest.stable (.phi target j) executable phi hphi).describes rest.fitting.proper rest.bare
    tracked typed fits ho (comes ▸ found) taken ?_ ?_
  · -- narrowing keeps what is on the way
    intro before names ranges vr describes
    unfold narrow
    split
    · next evolves =>
        split
        · next ev evolution =>
            by_cases noWrap : ev.noWrap = true
            · obtain ⟨⟨o', ho', starts⟩, ⟨i, hi⟩, set, direction, last, way⟩ :=
                course j phi ev t v evolves hphi evolution noWrap ht merges
              have init := starts ▸ typed o' ho'
              have same : before.table.query.operandRange ev.init =
                  s.table.query.operandRange ev.init :=
                Query.operandRange_congr fun n hn => ranges o' ho' n (starts.trans hn)
              have read : ∀ n, ev.init = .name n → known n := fun n hn =>
                dominated n (set n hn).1 (by rw [hn] at hi; exact Option.isSome_of_eq_some hi)
              refine describes.narrow isIntegral ⟨direction, ?_, ?_⟩ ?_ fits way
                fun n hn => ⟨read n hn, (set n hn).2⟩
              · rw [same, Env.reading_total hi]
                exact knows.operandRange_holds tracked init hi read
              · rw [Env.reading_total hi]
                exact knows.operand_fits tracked init hi
              · rwa [Function.runType, ← RangeTable.typeOf_eq rest.fitting.names exists_] at last
            · unfold Query.narrow
              rw [if_pos (by simp [noWrap])]
              exact describes
        · exact describes
    · exact describes
  · refine phiContribution_describes knows rest.bare tracked (typed o ho) value fun n hn => ?_
    rw [hn] at value
    have set : en.f.Dominated n x.block x.index := by
      rw [atEnd, ← comes]
      exact uses.phi target j phi o n b hphi ho hn (comes ▸ hb)
    have hknown := dominated n set (Option.isSome_of_eq_some value)
    refine ⟨hknown, fun forward => ?_⟩
    have rises : rank x.block < rank target := by
      refine (ranked x.block target consistent.way ⟨b, hb, member⟩).resolve_left fun back => ?_
      have marked := rest.back id e he (src ▸ consistent.way) (src ▸ dst ▸ back)
      rw [marked] at forward
      cases forward
    have before : en.f.Precedes rank n phi.dest :=
      ranked.precedes consistent.way set place (.inr rises)
    have ownType : (s.table.typeOf n).isTracked = true := by
      have same : s.table.typeOf n = s.table.typeOf phi.dest := by
        have := typed o ho
        rwa [hn] at this
      rwa [same]
    exact ⟨⟨hknown, before⟩, (agrees n hknown ownType).names.mono fun m hm =>
      ⟨hm.1, hm.2.trans before⟩⟩

include hf uses integral ranked rest in
/-- A way over an edge keeps what has been found out true. The merges of the target become known,
    and what is set after them is forgotten. -/
theorem TrueOf.edge_step {x : ExecState} {target : BlockId} {t : Block}
    (h : en.TrueOf s rank x) (consistent : en.f.Consistent en.config x.block x.index x.env)
    (leave : en.f.Leaves x target) (ht : en.f.block? target = some t)
    (course : en.OnCourse rank x target) :
    (∃ id, en.f.findEdge? x.block target = some id ∧ s.edgeExecutable id = true) ∧
      en.TrueOf s rank ⟨target, 0, t.mergeFrom x.block x.env⟩ := by
  obtain ⟨executable, known, agrees, dominated⟩ := h
  obtain ⟨id, found, taken⟩ := rest.taken hf uses integral consistent agrees dominated executable
    leave
  refine ⟨⟨id, found, taken⟩, ?_⟩
  obtain ⟨e, he, -, dst⟩ := Function.findEdge?_eq_some found
  obtain ⟨b, hb, atEnd, member⟩ := leave.mem_targets
  let merged (n : NameId) : Prop := ∃ j phi, en.f.phiAt? target j = some phi ∧ phi.dest = n
  have place : ∀ n, merged n → en.f.place? n = some (target, 0) := by
    rintro _ ⟨j, phi, hphi, rfl⟩
    exact hf.place?_phi hphi
  have kept : ∀ n, ¬ merged n → t.mergeFrom x.block x.env n = x.env n := by
    intro n other
    refine Block.mergeFrom_of_not_mem fun hn => other ?_
    obtain ⟨phi, hphi, same⟩ := List.mem_map.mp hn
    obtain ⟨j, hj⟩ := List.mem_iff_getElem?.mp hphi
    exact ⟨j, phi, Function.phiAt?_eq_some.mpr ⟨t, ht, hj⟩, same⟩
  refine ⟨dst ▸ rest.targets id e he taken, _, agrees.renew place kept ?_, ?_⟩
  · intro n sets hasValue tracked
    obtain ⟨v, hv⟩ := Option.isSome_iff_exists.mp hasValue
    obtain ⟨j, phi, o, hphi, rfl, ho, comes, value⟩ := exists_merged ht sets hv
    rw [Env.total_eq hv]
    exact rest.merged_describes hf uses integral ranked consistent agrees dominated leave found taken
      ht course hphi ho comes value hv
  · intro n set (hasValue : (t.mergeFrom x.block x.env n).isSome = true)
    by_cases sets : merged n
    · exact .inl ⟨sets, hasValue⟩
    · have set' : en.f.Dominated n x.block x.index := atEnd ▸
        Function.dominated_before_edge hb member (fun j phi hphi same => sets ⟨j, phi, hphi, same⟩) set
      rw [kept n sets] at hasValue
      refine .inr ⟨dominated n set' hasValue, sets, fun c hc => ?_⟩
      exact ranked.not_precedes ⟨_, consistent.way.choose_spec.step hb member⟩ set (place c hc)
        (Nat.le_refl 0)

include integral rest in
/-- Before anything has run, nothing is known about the names that have values. -/
theorem AtRest.start {env : Env} (init : en.f.Initial en.config env) :
    en.TrueOf s rank ⟨en.f.entry, 0, env⟩ := by
  refine ⟨rest.entry, (fun n => (env n).isSome = true), fun n hn _ => ?_, fun n _ hn => hn⟩
  obtain ⟨v, hv⟩ := Option.isSome_iff_exists.mp hn
  obtain ⟨info, index, nonnull, listed, param⟩ := init.param hv
  have exists_ : n < en.f.nameCount := (List.getElem?_eq_some_iff.mp listed).1
  have number : ((RangeTable.ofFunction en.f en.config).typeOf n).isPointer = false := by
    rw [RangeTable.typeOf_eq rfl exists_, ← RangeTable.typeOf_eq rest.fitting.names exists_]
    exact ScalarType.isPointer_eq_false (rest.fitting.isIntegral integral exists_)
  have unknown : ((RangeTable.ofFunction en.f en.config).rangeOf n).isVarying = true := by
    have origin : ((RangeTable.ofFunction en.f en.config).names[n]?).map NameInfo.origin =
        some (.param index nonnull) := by
      simp [RangeTable.ofFunction, listed, param]
    rw [RangeTable.rangeOf_ofFunction]
    exact RangeTable.initial_param number origin
  rw [(rest.bare n).eq_varying (rest.given n unknown)]
  exact Query.describes_varying

include hf uses integral limits unary ranked rest current in
/-- What a run has found out is true in every state of an execution in which all assertions hold, as
    long as evolutions tell the truth. -/
theorem AtRest.arrives {x : ExecState} (h : en.f.Arrives en.config x)
    (course : ∀ y target, en.f.Reaches en.config y → en.f.Leaves y target →
      en.OnCourse rank y target) : en.TrueOf s rank x := by
  induction h with
  | start init => exact rest.start integral init
  | step before asserted step ih =>
      have consistent := before.reaches.consistent hf uses
      cases step with
      | stmt hstmt run =>
          exact ih.stmt_step hf uses integral limits unary ranked rest current consistent hstmt
            asserted run
      | edge leave ht =>
          exact (ih.edge_step hf uses integral ranked rest consistent leave ht
            (course _ _ before.reaches leave)).2

end Engine

end RangeFlow
