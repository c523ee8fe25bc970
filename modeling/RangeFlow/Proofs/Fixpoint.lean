import Mathlib
import RangeFlow.Proofs.Narrowing
import RangeFlow.Proofs.Propagation
import RangeFlow.Proofs.Widening

/-! # The end of a propagation

When a propagation comes to an end by itself, the table is a fixed point of the transfer functions
in all blocks that can be entered: every assignment has the range that its operands give now, every
merge holds the values of its operands, and every terminator is decided as before or leads
everywhere. Comparisons are the exception. They read the ranges of names that equal their sides,
and are not visited again when only those change.
-/

namespace RangeFlow

namespace Engine

variable {en : Engine} {s s' : EngineState}

section Tables

variable {P : RangeTable → Prop} (visit : ∀ s site, P s.table → P (en.simulate s site).table)

include visit

/-- What every visit keeps of a table, the visit to a block keeps. -/
theorem simulateBlock_table (s : EngineState) (h : P s.table) (block : BlockId) :
    P (en.simulateBlock s block).table := by
  have places : ∀ (t : EngineState) (count : Nat) (place : Nat → Site), P t.table →
      P ((List.range count).foldl (fun t i => en.simulate t (place i)) t).table := by
    intro t count place ht
    exact List.foldlRecOn (motive := fun t : EngineState => P t.table) _ _ ht
      fun t ht i _ => visit t _ ht
  cases hb : en.f.block? block with
  | none =>
      simp only [simulateBlock, hb]
      exact h
  | some b =>
      rw [simulateBlock_eq hb]
      have phis : P (en.visitPhis s block b).table := places s _ _ h
      have stmts : P (en.visitStmts (en.visitPhis s block b) block b).table := by
        unfold visitStmts
        dsimp only
        rw [(EngineState.foldl_addEdge_frame _ _).1]
        exact places _ _ _ phis
      split
      · exact phis
      · unfold enter
        split
        · exact visit _ _ stmts
        · exact stmts

theorem step?_table (h : P s.table) (step : en.step? s = some s') : P s'.table := by
  have names : ∀ (t : EngineState) n, P t.table → P (en.processName t n).table := by
    intro t n ht
    refine List.foldlRecOn (motive := fun t : EngineState => P t.table) _ _ ht fun t ht site _ => ?_
    split
    · exact visit t site ht
    · exact ht
  rcases step?_cases step with ⟨id, rest, -, ⟨e, -, rfl, -⟩ | ⟨-, rfl, -⟩⟩ | ⟨n, rest, -, rfl, -⟩ |
    ⟨n, rest, -, rfl, -⟩
  · exact simulateBlock_table visit { s with edgeWork := rest } h e.dst
  · exact h
  · exact names _ n h
  · exact names _ n h

theorem propagate_table (h : P s.table) (fuel : Nat) : P (en.propagate fuel s).1.table := by
  induction fuel generalizing s with
  | zero => exact h
  | succ fuel ih =>
      unfold propagate
      split
      · exact h
      · split
        · next next hnext => exact ih (step?_table visit h hnext)
        · exact h

/-- What every visit keeps of a table holds at the end of a run. -/
theorem run_table (start : P (en.presettle en.start).table) (run : en.run = (s, true)) :
    P s.table := by
  have result := propagate_table visit (simulateBlock_table visit _ start en.f.entry) en.stepLimit
  rw [run_eq_propagate run] at result
  exact result

omit visit in
/-- Before a run names are only given up. -/
theorem presettle_table (start : P en.start.table)
    (giveUp : ∀ t n, P t → P (t.update n .varying).1) : P (en.presettle en.start).table := by
  have stored : ∀ (s : EngineState) n, P s.table → P (s.store n .varying).1.table :=
    fun s n h => giveUp s.table n h
  refine List.foldlRecOn (motive := fun s : EngineState => P s.table) _ _ start ?_
  rintro s h ⟨b, block⟩ -
  refine List.foldlRecOn (motive := fun s : EngineState => P s.table) _ _
    (List.foldlRecOn (motive := fun s : EngineState => P s.table) _ _ h ?_) ?_
  · rintro s h ⟨phi, index⟩ -
    simp only [presettlePhi]
    split
    · exact h
    · exact stored s phi.dest h
  · rintro s h ⟨stmt, index⟩ -
    simp only [presettleStmt]
    split
    · exact h
    · cases stmt with
      | assign dest rhs => exact stored s dest h
      | store | nop => exact h

end Tables

end Engine

namespace Function

/-- The operands of a right-hand side that validation does not look at have the type of their
    place: those of magnitudes, and the limits of assertions. -/
def LimitsTypedIn (f : Function) (ty : ScalarType) : Rhs → Prop
  | .unary .abs x => f.Typed ty x
  | .assert _ (.within low high _) =>
      ty.isTracked = true → ty.fits low = true ∧ ty.fits high = true
  | .assert _ (.compare _ limit) => f.Typed ty limit
  | _ => True

/-- All right-hand sides have such operands. -/
def LimitsTyped (f : Function) : Prop :=
  ∀ b ∈ f.blocks, ∀ dest rhs, Stmt.assign dest rhs ∈ b.stmts → f.LimitsTypedIn (f.typeOf dest) rhs

/-- The operands of all magnitudes have the type of their place. -/
def MagnitudesTyped (f : Function) : Prop :=
  ∀ b ∈ f.blocks, ∀ dest x, Stmt.assign dest (.unary .abs x) ∈ b.stmts → f.Typed (f.typeOf dest) x

theorem LimitsTyped.magnitudes {f : Function} (h : f.LimitsTyped) : f.MagnitudesTyped :=
  fun b hb dest _ member => h b hb dest _ member

theorem MagnitudesTyped.stmtAt? {f : Function} (h : f.MagnitudesTyped) {block : BlockId}
    {index : Nat} {dest : NameId} {x : Operand}
    (hstmt : f.stmtAt? block index = some (.assign dest (.unary .abs x))) :
    f.Typed (f.typeOf dest) x := by
  obtain ⟨b, hb, hi⟩ := stmtAt?_eq_some.mp hstmt
  exact h b (List.mem_of_getElem? hb) dest x (List.mem_of_getElem? hi)

theorem LimitsTyped.stmtAt? {f : Function} (h : f.LimitsTyped) {block : BlockId} {index : Nat}
    {dest : NameId} {rhs : Rhs} (hstmt : f.stmtAt? block index = some (.assign dest rhs)) :
    f.LimitsTypedIn (f.typeOf dest) rhs := by
  obtain ⟨b, hb, hi⟩ := stmtAt?_eq_some.mp hstmt
  exact h b (List.mem_of_getElem? hb) dest rhs (List.mem_of_getElem? hi)

end Function

namespace RangeTable

variable {f : Function} {config : Config} {t : RangeTable}

/-- The table of a function, with proper ranges. -/
structure Fitting (f : Function) (config : Config) (t : RangeTable) : Prop where
  names : t.names = (RangeTable.ofFunction f config).names
  proper : t.query.Proper

theorem typeOf_eq (names : t.names = (RangeTable.ofFunction f config).names) {n : NameId}
    (h : n < f.nameCount) : t.typeOf n = config.effectiveType (f.typeOf n) := by
  simp [typeOf, names, ofFunction, Function.typeOf, Function.typeOf?, List.getElem?_eq_getElem h]

theorem query_typed (names : t.names = (RangeTable.ofFunction f config).names) {ty : ScalarType}
    {o : Operand} (tracked : ty.isTracked = true) (h : f.Typed ty o) :
    t.query.Typed (config.effectiveType ty) o := by
  cases o with
  | name n =>
      obtain ⟨exists_, rfl⟩ := h
      exact typeOf_eq names exists_
  | const c => exact (effectiveType_fits config ty c).trans (h tracked)

theorem rangeOf_ofFunction (f : Function) (config : Config) (n : NameId) :
    (RangeTable.ofFunction f config).rangeOf n = (RangeTable.ofFunction f config).initial n := by
  have none_ : (RangeTable.ofFunction f config).get? n = none := by
    simp only [get?, ofFunction, List.getElem?_replicate]
    split <;> rfl
  rw [rangeOf, none_]
  rfl

theorem ofFunction_fitting (f : Function) (config : Config) :
    (RangeTable.ofFunction f config).Fitting f config := by
  refine ⟨rfl, fun n _ => ?_⟩
  simp only [query, rangeOf_ofFunction, initial]
  split
  · exact .varying
  · split
    · split
      · exact ValueRange.nonnull_proper _
      · exact .varying
    · exact .varying
    · exact .undefined
    · exact .undefined

/-- A proper range that is stored keeps the table fitting. -/
theorem Fitting.update (h : t.Fitting f config) {n : NameId} {vr : ValueRange}
    (new : (t.typeOf n).isTracked = true → vr.Proper (t.typeOf n)) :
    (t.update n vr).1.Fitting f config := by
  refine ⟨(update_names t n vr).trans h.names, fun m tracked => ?_⟩
  have types : (t.update n vr).1.typeOf m = t.typeOf m := typeOf_eq_of_names (update_names t n vr) m
  simp only [query] at tracked ⊢
  rw [types] at tracked ⊢
  by_cases same : m = n
  · subst same
    rcases rangeOf_update_self t m vr with stored | unknown
    · rw [stored]
      exact new tracked
    · rw [unknown]
      exact .varying
  · rw [rangeOf_update_of_ne t vr same]
    exact h.proper m tracked

/-- In a valid function whose magnitudes are typed, right-hand sides pass typed operands on. -/
theorem passes_typed (names : t.names = (RangeTable.ofFunction f config).names) (hf : f.Valid)
    (magnitudes : f.MagnitudesTyped) {block : BlockId} {index : Nat} {dest : NameId} {rhs : Rhs}
    (hstmt : f.stmtAt? block index = some (.assign dest rhs))
    (tracked : (t.typeOf dest).isTracked = true) : t.query.PassesTyped (t.typeOf dest) rhs := by
  rw [typeOf_eq names (hf.dest_lt hstmt)] at tracked ⊢
  rw [effectiveType_isTracked] at tracked
  have typed : ∀ {o}, f.Typed (f.typeOf dest) o →
      t.query.Typed (config.effectiveType (f.typeOf dest)) o := query_typed names tracked
  obtain ⟨_, -, checked⟩ := bind_eq_ok.mp (hf.checkRhs hstmt)
  cases rhs with
  | copy x => exact typed (Function.checkOperand_eq_ok.mp checked)
  | unary op x =>
      rintro rfl
      exact typed (magnitudes.stmtAt? hstmt)
  | select cond x y =>
      obtain ⟨_, -, checked⟩ := bind_eq_ok.mp checked
      obtain ⟨_, hx, hy⟩ := bind_eq_ok.mp checked
      exact ⟨typed (Function.checkOperand_eq_ok.mp hx), typed (Function.checkOperand_eq_ok.mp hy)⟩
  | assert subject predicate => exact typed (Function.checkOperand_eq_ok.mp checked)
  | binary | compare | addressOf | load | call => trivial

/-- In a valid function whose limits are typed, so are all right-hand sides. -/
theorem rhs_typed (names : t.names = (RangeTable.ofFunction f config).names) (hf : f.Valid)
    (limits : f.LimitsTyped) {block : BlockId} {index : Nat} {dest : NameId} {rhs : Rhs}
    (hstmt : f.stmtAt? block index = some (.assign dest rhs))
    (tracked : (t.typeOf dest).isTracked = true) : t.query.RhsTyped (t.typeOf dest) rhs := by
  have passes := passes_typed names hf limits.magnitudes hstmt tracked
  rw [typeOf_eq names (hf.dest_lt hstmt)] at tracked passes ⊢
  rw [effectiveType_isTracked] at tracked
  have typed : ∀ {o}, f.Typed (f.typeOf dest) o →
      t.query.Typed (config.effectiveType (f.typeOf dest)) o := query_typed names tracked
  have limit := limits.stmtAt? hstmt
  cases rhs with
  | copy | unary | select => exact passes
  | binary op x y =>
      obtain ⟨_, -, checked⟩ := bind_eq_ok.mp (hf.checkRhs hstmt)
      obtain ⟨_, hx, hy⟩ := bind_eq_ok.mp checked
      refine ⟨typed (Function.checkOperand_eq_ok.mp hx), fun symmetric => ?_⟩
      rw [symmetric] at hy
      exact typed (Function.checkOperand_eq_ok.mp hy)
  | assert subject predicate =>
      refine ⟨passes, ?_⟩
      cases predicate with
      | within low high negated =>
          simp only [Query.PredicateTyped, effectiveType_fits]
          exact limit tracked
      | compare op o => exact typed limit
  | compare | addressOf | load | call => trivial

theorem phi_typed (names : t.names = (RangeTable.ofFunction f config).names) (hf : f.Valid)
    {block : BlockId} {index : Nat} {phi : Phi} (hphi : f.phiAt? block index = some phi)
    (tracked : (t.typeOf phi.dest).isTracked = true) :
    ∀ o ∈ phi.operands, t.query.Typed (t.typeOf phi.dest) o.value := by
  have type := typeOf_eq names (hf.phi_dest_lt hphi)
  rw [type] at tracked ⊢
  rw [effectiveType_isTracked] at tracked
  exact fun o ho => query_typed names tracked (hf.phi_typed hphi ho)

end RangeTable

namespace Engine

variable {en : Engine} {s s' : EngineState}

theorem simulate_table (en : Engine) (s : EngineState) (site : Site) :
    (en.simulate s site).table = s.table ∨
      (en.simulate s site).table = (en.visit { s with visits := s.visits + 1 } site).1.table := by
  unfold simulate
  split
  · exact .inl rfl
  · right
    obtain ⟨t, status, output⟩ := en.visit { s with visits := s.visits + 1 } site
    cases status <;> cases output <;>
      simp only [EngineState.queueName_table, (EngineState.foldl_addEdge_frame _ _).1,
        EngineState.settle]

/-- Evolutions that narrow ranges start from an operand of their merge. -/
def Anchored (en : Engine) : Prop :=
  en.config.useEvolution = true → ∀ block index phi ev, en.f.phiAt? block index = some phi →
    en.evolutionAt? block phi.dest = some ev → ev.noWrap = true →
    ∃ o ∈ phi.operands, o.value = ev.init

theorem anchored_of_noEvolution (noEvolution : en.config.useEvolution = false) : en.Anchored :=
  fun evolves => absurd (noEvolution.symm.trans evolves) nofun

/-- Narrowing keeps the range of a merge proper. -/
theorem narrow_proper (hf : en.f.Valid) (anchored : en.Anchored)
    (h : s.table.Fitting en.f en.config) {block : BlockId} {index : Nat} {phi : Phi}
    (hphi : en.f.phiAt? block index = some phi)
    (tracked : (s.table.typeOf phi.dest).isTracked = true) {vr : ValueRange}
    (proper : vr.Proper (s.table.typeOf phi.dest)) :
    (en.narrow s block phi.dest (s.table.typeOf phi.dest) vr).Proper
      (s.table.typeOf phi.dest) := by
  unfold narrow
  split
  · next evolves =>
      split
      · next ev found =>
          cases noWrap : ev.noWrap with
          | true =>
              obtain ⟨o, ho, same⟩ := anchored evolves block index phi ev hphi found noWrap
              refine Query.narrow_proper h.proper tracked ?_ proper
              exact same ▸ RangeTable.phi_typed h.names hf hphi tracked o ho
          | false =>
              rw [Query.narrow, if_pos (by simp [noWrap])]
              exact proper
      · exact proper
  · exact proper

theorem visitPhi_fitting (hf : en.f.Valid) (anchored : en.Anchored)
    (h : s.table.Fitting en.f en.config) {block : BlockId} {index : Nat}
    {phi : Phi} (hphi : en.f.phiAt? block index = some phi) :
    (en.visitPhi s block phi).1.table.Fitting en.f en.config := by
  have merged := fun tracked =>
    (mergedRange_covers en block h.proper tracked
      (RangeTable.phi_typed h.names hf hphi tracked)).1
  obtain ⟨before, ⟨phiEdges, rfl⟩, direct | ⟨old, widened, hwiden, direct⟩ | givenUp⟩ :=
    visitPhi_cases en s block phi
  · rw [direct]
    exact h.update merged
  · rw [direct]
    refine h.update fun tracked => ?_
    rcases widen?_forms hwiden with rfl | ⟨anti, _, _, kept⟩ | ⟨range_, _, _, _, rfl⟩
    · exact merged tracked
    · exact (ValueRange.widenAnti?_widens (merged tracked) anti kept).1
    · exact narrow_proper (s := { s with phiEdges }) hf anchored h hphi tracked
        (ValueRange.pushEnds_widens (merged tracked) range_ _ _ _).1
  · rw [givenUp]
    unfold giveUpPhi
    dsimp only
    split
    · exact h.update fun _ => .varying
    · exact h.update fun tracked =>
        narrow_proper (s := { s with phiEdges }) hf anchored h hphi tracked .varying

theorem visitStmt_fitting (hf : en.f.Valid) (limits : en.f.LimitsTyped)
    (h : s.table.Fitting en.f en.config) {block : BlockId} {index : Nat} {dest : NameId} {rhs : Rhs}
    (hstmt : en.f.stmtAt? block index = some (.assign dest rhs)) :
    (en.visitStmt s dest rhs).1.table.Fitting en.f en.config :=
  h.update fun tracked =>
    Query.rhsResult_proper h.proper tracked (RangeTable.rhs_typed h.names hf limits hstmt tracked)

/-- A visit keeps the table fitting. -/
theorem visit_fitting (hf : en.f.Valid) (limits : en.f.LimitsTyped)
    (anchored : en.Anchored) (s : EngineState) (site : Site)
    (h : s.table.Fitting en.f en.config) :
    (en.visit s site).1.table.Fitting en.f en.config := by
  cases site with
  | phi block index =>
      simp only [visit]
      split
      · next phi hphi => exact visitPhi_fitting hf anchored h hphi
      · exact h
  | stmt block index =>
      simp only [visit]
      split
      · next dest rhs hstmt => exact visitStmt_fitting hf limits h hstmt
      · exact h
  | terminator block =>
      simp only [visit]
      split
      · unfold visitTerminator
        split
        · split
          · rw [(EngineState.addEdge_frame _ _).1]
            exact h
          · exact h
        · exact h
      · exact h

theorem simulate_fitting (hf : en.f.Valid) (limits : en.f.LimitsTyped)
    (anchored : en.Anchored) (s : EngineState) (site : Site)
    (h : s.table.Fitting en.f en.config) :
    (en.simulate s site).table.Fitting en.f en.config := by
  rcases simulate_table en s site with same | same
  · rw [same]
    exact h
  · rw [same]
    exact visit_fitting hf limits anchored { s with visits := s.visits + 1 } site h

theorem presettle_fitting (en : Engine) :
    (en.presettle en.start).table.Fitting en.f en.config :=
  presettle_table (RangeTable.ofFunction_fitting en.f en.config)
    fun _ _ h => h.update fun _ => .varying

/-- At the end of a run all ranges are proper. -/
theorem run_fitting (hf : en.f.Valid) (limits : en.f.LimitsTyped)
    (anchored : en.Anchored) (run : en.run = (s, true)) :
    s.table.Fitting en.f en.config :=
  run_table (simulate_fitting hf limits anchored) (presettle_fitting en) run

/-- Nothing is known about the merge, or it holds what each operand contributes over an edge that
    can be taken. -/
def MergeCovers (en : Engine) (s : EngineState) (block : BlockId) (phi : Phi) : Prop :=
  (s.table.rangeOf phi.dest).isVarying = true ∨ ∀ o ∈ phi.operands, ∀ edge,
    en.f.findEdge? o.predecessor block = some edge → s.edgeExecutable edge = true →
    ∀ env v, (s.table.typeOf phi.dest).fits v = true →
      (en.phiContribution s edge o.value).Holds env (s.table.typeOf phi.dest) v →
      (s.table.rangeOf phi.dest).Holds env (s.table.typeOf phi.dest) v

theorem PhiStable.covers {block : BlockId} {index : Nat} {phi : Phi} (h : en.PhiStable s block phi)
    (hf : en.f.Valid) (noEvolution : en.config.useEvolution = false)
    (fitting : s.table.Fitting en.f en.config) (hphi : en.f.phiAt? block index = some phi)
    (tracked : (s.table.typeOf phi.dest).isTracked = true) : en.MergeCovers s block phi := by
  obtain ⟨proper, covers⟩ := mergedRange_covers en block fitting.proper tracked
    (RangeTable.phi_typed fitting.names hf hphi tracked)
  rcases h with unknown | ⟨before, -, -, computed⟩
  · exact .inl unknown
  · generalize hvr : s.table.rangeOf phi.dest = vr at computed
    rw [MergeCovers, hvr]
    have contributes := fun o ho edge found executable env v => covers _
      (mem_phiContributions.mpr ⟨o, ho, edge, found, executable, rfl⟩) env v
    cases computed with
    | merged =>
        exact .inr fun o ho edge found executable env v _ holds =>
          contributes o ho edge found executable env v holds
    | widened widened =>
        refine .inr fun o ho edge found executable env v fits holds => ?_
        have merged := contributes o ho edge found executable env v holds
        exact (widen?_widens noEvolution proper widened).2 env v fits merged
    | narrowed =>
        left
        simp only [narrow, noEvolution, Bool.false_eq_true, if_false]
        rfl

/-- Every place of every block that can be entered is as the ranges and edges of the state say. -/
structure Stationary (en : Engine) (s : EngineState) : Prop where
  entry : s.blockExecutable en.f.entry = true
  targets : ∀ id e, en.f.edge? id = some e → s.edgeExecutable id = true →
    s.blockExecutable e.dst = true
  assignments : ∀ block index dest rhs, s.blockExecutable block = true →
    en.f.stmtAt? block index = some (.assign dest rhs) → (∀ op a b, rhs ≠ .compare op a b) →
    (s.table.rangeOf dest).isVarying = true ∨ s.table.rangeOf dest =
      s.table.query.rhsResult (s.table.typeOf dest) rhs en.config.nonCallExceptions
  decisions : ∀ block b, s.blockExecutable block = true → en.f.block? block = some b →
    isConditional b.terminator = true → en.TerminatorStable s block b.terminator
  /-- Edges that need no decision can be taken. -/
  others : en.Opened s

/-- A run of a valid function that comes to an end by itself loses no work. -/
theorem run_stationary {f : Function} (hf : f.validate = .ok ()) {config : Config}
    (noEvolution : config.useEvolution = false) {oracle : EvolutionOracle} {s : EngineState}
    (run : (Engine.ofFunction f config oracle).run = (s, true)) :
    (Engine.ofFunction f config oracle).Stationary s ∧ (f.LimitsTyped → ∀ block index phi,
      s.blockExecutable block = true → f.phiAt? block index = some phi →
      (s.table.typeOf phi.dest).isTracked = true →
      (Engine.ofFunction f config oracle).MergeCovers s block phi) := by
  have valid : (Engine.ofFunction f config oracle).f.Valid := Function.valid_of_validate hf
  obtain ⟨inv, entry, stable, targets⟩ := run_stable (fun _ => True) valid
    (fun _ _ => trivial) run
  refine ⟨⟨entry, targets, ?_, ?_, inv.opened⟩, ?_⟩
  · intro block index dest rhs executable hstmt noComparison
    refine (stable (.stmt block index) executable dest rhs hstmt).imp id ?_
    rintro ⟨before, -, names, ranges, stored⟩
    rw [stored]
    exact Query.rhsResult_congr noComparison (funext (RangeTable.typeOf_eq_of_names names)) ranges
  · exact fun block b executable => stable (.terminator block) executable b
  · intro limits block index phi executable hphi tracked
    have fitting := run_fitting valid limits (anchored_of_noEvolution noEvolution) run
    exact (stable (.phi block index) executable phi hphi).covers valid noEvolution fitting hphi
      tracked

/-- The fixed part for a function is the one with the dominators and loops of the function. -/
theorem ofFunction_eq (en : Engine) (tree : en.f.dominators = en.dominators)
    (loops : LoopForest.ofGraph en.f.graph en.dominators = en.loops)
    (back : backEdgesOf en.f en.dominators = en.backEdges) :
    Engine.ofFunction en.f en.config en.oracle = en := by
  simp only [Engine.ofFunction, tree, loops, back]

end Engine

/-- Goes round a loop three times. The merge in block 4 takes its value from `_3` in the first two
    rounds and from `_1` in the last one. -/
def lateMerge : Function where
  name := "late"
  names :=
    [ ⟨.int ⟨8, by decide⟩ .signed, .param 0 false⟩, ⟨.int ⟨8, by decide⟩ .signed, .param 1 false⟩,
      ⟨.int ⟨8, by decide⟩ .signed, .defined⟩, ⟨.int ⟨8, by decide⟩ .signed, .defined⟩,
      ⟨.int ⟨8, by decide⟩ .signed, .defined⟩, ⟨.int ⟨8, by decide⟩ .signed, .defined⟩,
      ⟨.int ⟨8, by decide⟩ .signed, .defined⟩, ⟨.int ⟨8, by decide⟩ .signed, .defined⟩,
      ⟨.int ⟨1, by decide⟩ .unsigned, .defined⟩, ⟨.int ⟨1, by decide⟩ .unsigned, .defined⟩ ]
  blocks :=
    [ .ofTerminator (.branch ⟨.ne, .name 0, .const 0⟩ 1 6),
      ⟨[], [.assign 2 (.assert 0 (.compare .ne (.const 0))),
        .assign 3 (.binary .add (.name 2) (.const 0))], .jump 2, [], false⟩,
      ⟨[⟨4, [⟨1, .const 0⟩, ⟨5, .name 5⟩]⟩], [.assign 5 (.binary .add (.name 4) (.const 1))],
        .branch ⟨.gt, .name 4, .const 1⟩ 3 4, [], false⟩,
      .ofTerminator (.jump 4),
      ⟨[⟨6, [⟨2, .name 3⟩, ⟨3, .name 1⟩]⟩], [], .branch ⟨.le, .name 6, .const 10⟩ 5 6, [], false⟩,
      ⟨[], [.assign 7 (.assert 6 (.compare .le (.const 10))),
        .assign 8 (.compare .eq (.name 7) (.const 0)),
        .assign 9 (.compare .lt (.name 7) (.const 20))], .jump 2, [], false⟩,
      .ofTerminator (.return none) ]

theorem lateMerge_limitsTyped : lateMerge.LimitsTyped := by
  intro b hb dest rhs h
  simp only [lateMerge, Block.ofTerminator, List.mem_cons, List.not_mem_nil, or_false] at hb
  rcases hb with rfl | rfl | rfl | rfl | rfl | rfl | rfl <;>
    simp only [List.mem_cons, List.not_mem_nil, or_false, Stmt.assign.injEq] at h
  · rcases h with ⟨rfl, rfl⟩ | ⟨rfl, rfl⟩
    · exact fun _ => by decide
    · trivial
  · obtain ⟨rfl, rfl⟩ := h
    trivial
  · rcases h with ⟨rfl, rfl⟩ | ⟨rfl, rfl⟩ | ⟨rfl, rfl⟩
    · exact fun _ => by decide
    · trivial
    · trivial

theorem lateMerge_dominators : lateMerge.dominators = ⟨0, #[some [], some [0], some [1, 0],
    some [2, 1, 0], some [2, 1, 0], some [4, 2, 1, 0], some [0]]⟩ := by
  have without : DominatorTree.reachedWithout lateMerge.graph 0 =
      #[#[false, false, false, false, false, false, false],
        #[true, false, false, false, false, false, true],
        #[true, true, false, false, false, false, true],
        #[true, true, true, false, true, true, true],
        #[true, true, true, true, false, false, true],
        #[true, true, true, true, true, false, true],
        #[true, true, true, true, true, true, false]] := by
    cbv
  have reached : Graph.mark lateMerge.graph.size (lateMerge.graph.postorder 0) =
      #[true, true, true, true, true, true, true] := by
    cbv
  rw [Function.dominators, Function.entry, DominatorTree.ofGraph_of_stages
    #[[], [0], [0, 1], [0, 1, 2], [0, 1, 2], [0, 1, 2, 4], [0]] without rfl reached]
  cbv

/-- The fixed part for the function, written out. -/
def lateMergeEngine : Engine where
  f := lateMerge
  config := { useEvolution := false, insertAssertions := false, maxVisits := 100 }
  oracle := .induction true
  dominators := ⟨0, #[some [], some [0], some [1, 0], some [2, 1, 0], some [2, 1, 0],
    some [4, 2, 1, 0], some [0]]⟩
  loops := ⟨7, [⟨2, .ofList [2, 3, 4, 5], [5], some 1, [⟨4, 6⟩], 0, none⟩]⟩
  backEdges := [false, false, false, false, false, false, false, false, true]

theorem ofFunction_lateMerge :
    Engine.ofFunction lateMerge lateMergeEngine.config lateMergeEngine.oracle =
      lateMergeEngine := by
  have loops : LoopForest.ofGraph lateMerge.graph lateMergeEngine.dominators =
      lateMergeEngine.loops := by
    cbv
  exact lateMergeEngine.ofFunction_eq lateMerge_dominators loops (by decide)

/-- The state in which the propagation comes to its end. -/
def lateMergeEnd : EngineState where
  table :=
    { names := lateMerge.names
      ranges :=
        [ none, none, some ⟨.outside (.const 0) (.const 0), .ofList [0]⟩,
          some ⟨.outside (.const 0) (.const 0), ∅⟩, some ⟨.inside (.const 0) .posInf, ∅⟩,
          some ⟨.inside (.const 1) .posInf, ∅⟩, some .varying,
          some ⟨.inside (.const (-128)) (.const 10), .ofList [6]⟩, some (.singleton 0),
          some (.singleton 1) ] }
  executableEdges := [true, true, true, true, true, true, true, true, true]
  executableBlocks := [true, true, true, true, true, true, true]
  edgeWork := []
  varyingWork := []
  changedWork := []
  queued := [false, false, false, false, false, false, false, false, false, false]
  settled := [.phi 4 0, .terminator 2, .terminator 4, .terminator 0]
  phiEdges := [0, 0, 0, 0, 2, 0, 1, 0, 0, 0]
  visits := 25

theorem lateMerge_run :
    (Engine.ofFunction lateMerge lateMergeEngine.config lateMergeEngine.oracle).run =
      (lateMergeEnd, true) := by
  rw [ofFunction_lateMerge]
  rfl

theorem Engine.run_stationary_lateMerge :
    (Engine.ofFunction lateMerge lateMergeEngine.config lateMergeEngine.oracle).Stationary
      lateMergeEnd ∧
    (Engine.ofFunction lateMerge lateMergeEngine.config lateMergeEngine.oracle).MergeCovers
      lateMergeEnd 2 ⟨4, [⟨1, .const 0⟩, ⟨5, .name 5⟩]⟩ := by
  obtain ⟨stationary, merges⟩ := run_stationary (f := lateMerge) rfl rfl lateMerge_run
  exact ⟨stationary, merges lateMerge_limitsTyped 2 0 _ rfl rfl rfl⟩

/-- Merges a value that is asserted to lie outside of an interval with one end below its type. -/
def misfit : Function where
  name := "misfit"
  names :=
    [ ⟨.int ⟨8, by decide⟩ .signed, .param 0 false⟩, ⟨.int ⟨8, by decide⟩ .signed, .defined⟩,
      ⟨.int ⟨8, by decide⟩ .signed, .defined⟩, ⟨.int ⟨8, by decide⟩ .signed, .defined⟩,
      ⟨.int ⟨8, by decide⟩ .signed, .defined⟩ ]
  blocks :=
    [ .ofTerminator (.branch ⟨.lt, .name 0, .const 0⟩ 1 2),
      ⟨[], [.assign 1 (.assert 0 (.within (-1000) 3 true))], .jump 3, [], false⟩,
      ⟨[], [.assign 2 (.assert 0 (.within (-128) 101 false)),
        .assign 3 (.binary .sub (.name 2) (.const 100))], .jump 3, [], false⟩,
      ⟨[⟨4, [⟨1, .name 1⟩, ⟨2, .name 3⟩]⟩], [], .return (some (.name 4)), [], false⟩ ]

/-- The fixed part for the function, written out. -/
def misfitEngine : Engine where
  f := misfit
  config := { useEvolution := false, insertAssertions := false, maxVisits := 100 }
  oracle := .silent
  dominators := ⟨0, #[some [], some [0], some [0], some [0]]⟩
  loops := .empty 4
  backEdges := [false, false, false, false]

theorem ofFunction_misfit :
    Engine.ofFunction misfit misfitEngine.config misfitEngine.oracle = misfitEngine := by
  have without : DominatorTree.reachedWithout misfit.graph 0 =
      #[#[false, false, false, false], #[true, false, true, true], #[true, true, false, true],
        #[true, true, true, false]] := by
    cbv
  have reached : Graph.mark misfit.graph.size (misfit.graph.postorder 0) =
      #[true, true, true, true] := by
    cbv
  have tree : misfit.dominators = misfitEngine.dominators := by
    rw [Function.dominators, Function.entry,
      DominatorTree.ofGraph_of_stages #[[], [0], [0], [0]] without rfl reached]
    cbv
  have loops : LoopForest.ofGraph misfit.graph misfitEngine.dominators = misfitEngine.loops := by
    cbv
  exact misfitEngine.ofFunction_eq tree loops (by decide)

/-- The state in which the propagation comes to its end. -/
def misfitEnd : EngineState where
  table :=
    { names := misfit.names
      ranges :=
        [ none, some ⟨.outside (.const (-1000)) (.const 3), .ofList [0]⟩,
          some ⟨.inside (.const (-128)) (.const 101), .ofList [0]⟩,
          some ⟨.inside .negInf (.const 1), ∅⟩, some ⟨.outside (.const (-1000)) (.const 3), ∅⟩ ] }
  executableEdges := [true, true, true, true]
  executableBlocks := [true, true, true, true]
  edgeWork := []
  varyingWork := []
  changedWork := []
  queued := [false, false, false, false, false]
  settled := [.terminator 3, .terminator 0]
  phiEdges := [0, 0, 0, 0, 2]
  visits := 10

/-- Without the condition on limits a merge may lose values: 0 is among those of `_3` but not among
    those of the merge. -/
theorem Engine.misfit_merge_loses :
    misfit.validate = .ok () ∧
    (Engine.ofFunction misfit misfitEngine.config misfitEngine.oracle).run = (misfitEnd, true) ∧
    misfitEnd.blockExecutable 3 = true ∧
    misfit.phiAt? 3 0 = some ⟨4, [⟨1, .name 1⟩, ⟨2, .name 3⟩]⟩ ∧
    ¬ (Engine.ofFunction misfit misfitEngine.config misfitEngine.oracle).MergeCovers misfitEnd 3
      ⟨4, [⟨1, .name 1⟩, ⟨2, .name 3⟩]⟩ := by
  rw [ofFunction_misfit]
  refine ⟨rfl, ?_, rfl, rfl, ?_⟩
  · rfl
  · rintro (varying | covers)
    · cases varying
    · have zero : ¬ ((-1000 : Int) ≤ 0 ∧ (0 : Int) ≤ 3) :=
        covers ⟨2, .name 3⟩ (by decide) 3 rfl rfl (fun _ => 0) 0 rfl
          (show (-128 : Int) ≤ 0 ∧ (0 : Int) ≤ 1 by decide)
      exact zero (by decide)

end RangeFlow
