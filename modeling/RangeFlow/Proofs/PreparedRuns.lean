import RangeFlow.Analysis.Result
import RangeFlow.Proofs.TruthfulEvolutions

/-! # Results for the function that is propagated through

A propagation that comes to an end by itself leaves ranges that executions keep to; one that does
not gives everything up. Either way the result of the analysis holds all values of executions of the
function that ranges are propagated through, if its assertions hold.
-/

namespace RangeFlow

namespace RangeTable

theorem size_le_size_update (t : RangeTable) (n : NameId) (vr : ValueRange) :
    t.size ≤ (t.update n vr).1.size := by
  have stored : ∀ vr, t.size ≤ (t.set n vr).size := by
    intro vr
    simp [set, size]
  unfold update
  dsimp only
  split
  · exact stored _
  · split <;> exact stored _

/-- When all names have been given up, any value is possible for each of them. -/
theorem rangeOf_foldl_varying {names : List NameId} {t : RangeTable} {n : NameId}
    (h : n ∈ names ∨ t.rangeOf n = .varying) :
    (names.foldl (fun t n => (t.update n .varying).1) t).rangeOf n = .varying := by
  induction names generalizing t with
  | nil => exact h.resolve_left List.not_mem_nil
  | cons m names ih =>
      apply ih
      by_cases same : n = m
      · subst same
        exact .inr (rangeOf_update_varying t n)
      · refine h.imp (fun member => (List.mem_cons.mp member).resolve_left same) fun known => ?_
        rw [rangeOf_update_of_ne t .varying same, known]

end RangeTable

namespace Engine

variable {en : Engine} {s : EngineState}

/-- A visit stores one range at most. -/
theorem visit_table (en : Engine) (s : EngineState) (site : Site) :
    (en.visit s site).1.table = s.table ∨
      ∃ n vr, (en.visit s site).1.table = (s.table.update n vr).1 := by
  cases site with
  | phi block index =>
      simp only [visit]
      split
      · next phi hphi =>
          obtain ⟨vr, stored⟩ := visitPhi_table en s block phi
          exact .inr ⟨_, vr, stored⟩
      · exact .inl rfl
  | stmt block index =>
      simp only [visit]
      split
      · exact .inr ⟨_, _, rfl⟩
      · exact .inl rfl
  | terminator block =>
      simp only [visit]
      split
      · unfold visitTerminator
        split
        · split
          · exact .inl (EngineState.addEdge_frame _ _).1
          · exact .inl rfl
        · exact .inl rfl
      · exact .inl rfl

/-- A run ends with the last state of the propagation, or gives everything up. -/
theorem run_cases {converged : Bool} (run : en.run = (s, converged)) :
    let last := (en.propagate en.stepLimit
      (en.simulateBlock (en.presettle en.start) en.f.entry)).1
    converged = true ∧ s = last ∨ converged = false ∧ s = en.surrender last := by
  unfold Engine.run at run
  dsimp only at run ⊢
  obtain ⟨state, ended⟩ := Prod.mk.inj run
  cases converged with
  | true =>
      rw [ended, if_pos rfl] at state
      exact .inl ⟨rfl, state.symm⟩
  | false =>
      rw [ended, if_neg Bool.false_ne_true] at state
      exact .inr ⟨rfl, state.symm⟩

/-- The table of a run has places for all names. -/
theorem nameCount_le_size {converged : Bool} (run : en.run = (s, converged)) :
    en.f.nameCount ≤ s.table.size := by
  have grows : ∀ (t : RangeTable) n vr, en.f.nameCount ≤ t.size →
      en.f.nameCount ≤ (t.update n vr).1.size :=
    fun t n vr h => Nat.le_trans h (t.size_le_size_update n vr)
  have visit : ∀ (s : EngineState) site, en.f.nameCount ≤ s.table.size →
      en.f.nameCount ≤ (en.simulate s site).table.size := by
    intro s site h
    rcases simulate_table en s site with same | same
    · rwa [same]
    · rw [same]
      rcases visit_table en { s with visits := s.visits + 1 } site with same | ⟨n, vr, same⟩
      · rwa [same]
      · rw [same]
        exact grows _ n vr h
  have start : en.f.nameCount ≤ en.start.table.size := by
    simp [start, RangeTable.ofFunction, RangeTable.size]
  have prepared : en.f.nameCount ≤ (en.presettle en.start).table.size :=
    presettle_table (P := fun t => en.f.nameCount ≤ t.size) start fun t n h => grows t n _ h
  have propagated := propagate_table (P := fun t => en.f.nameCount ≤ t.size) visit
    (simulateBlock_table (P := fun t => en.f.nameCount ≤ t.size) visit _ prepared en.f.entry)
    en.stepLimit
  rcases run_cases run with ⟨-, rfl⟩ | ⟨-, rfl⟩
  · exact propagated
  · exact List.foldlRecOn (motive := fun t : RangeTable => en.f.nameCount ≤ t.size) _ _ propagated
      fun t h n _ => grows t n .varying h

theorem propagate_keeps_inv (hf : en.f.Valid) (h : en.Inv (fun _ => True) s) (fuel : Nat) :
    en.Inv (fun _ => True) (en.propagate fuel s).1 := by
  induction fuel generalizing s with
  | zero => exact h
  | succ fuel ih =>
      unfold propagate
      split
      · exact h
      · split
        · next next hnext => exact ih (step?_inv hf h hnext fun _ _ => trivial).1
        · exact h

/-- A run that is stopped gives everything up. -/
theorem run_surrendered (hf : en.f.Valid) (run : en.run = (s, false)) :
    (∀ block < en.f.blockCount, s.blockExecutable block = true) ∧
    (∀ id e, en.f.edge? id = some e → s.edgeExecutable id = true) ∧
    ∀ n < en.f.nameCount, s.table.rangeOf n = .varying := by
  have inv := propagate_keeps_inv hf (entry_inv hf fun _ _ => trivial).1 en.stepLimit
  obtain rfl := ((run_cases run).resolve_left fun finished => nomatch finished.1).2
  refine ⟨fun block known => ?_, fun id e he => ?_, fun n known => ?_⟩
  · rw [← inv.blockCount] at known
    simp [surrender, EngineState.blockExecutable, known]
  · have known := Function.edge?_lt he
    rw [← inv.edgeCount] at known
    simp [surrender, EngineState.edgeExecutable, known]
  · exact RangeTable.rangeOf_foldl_varying (.inl (List.mem_range.mpr known))

/-- A run that comes to an end by itself leaves its work done. -/
theorem run_atRest {f : Function} (hf : f.Valid) (limits : f.LimitsTyped) {config : Config}
    {oracle : EvolutionOracle} (anchored : (Engine.ofFunction f config oracle).Anchored)
    (run : (Engine.ofFunction f config oracle).run = (s, true)) :
    (Engine.ofFunction f config oracle).AtRest s := by
  obtain ⟨inv, entry, stable, targets⟩ :=
    run_stable (fun _ => True) hf (fun _ _ => trivial) run
  refine ⟨entry, targets, stable, inv.opened, run_fitting hf limits anchored run, run_bare run, ?_,
    ?_⟩
  · intro id e he reached above
    exact isBackEdge_iff.mpr ⟨e, he, hf.dominates_of_onEveryPath reached above⟩
  · refine run_keeps (P := fun s => ∀ n,
      ((RangeTable.ofFunction f config).rangeOf n).isVarying = true →
        (s.table.rangeOf n).isVarying = true) ?_
      (fun _ _ kept move n given => move.varying (kept n given)) run
    exact fun _ given => given

end Engine

namespace Function

variable {f : Function}

theorem defSite?_lt {n : NameId} {site : DefSite} (h : f.defSite? n = some site) :
    n < f.nameCount := by
  unfold defSite? at h
  split at h
  · assumption
  · cases h

/-- A block that can be reached exists. -/
theorem Valid.reachable_lt (hf : f.Valid) {block : BlockId} (h : f.Reachable block) :
    block < f.blockCount := by
  obtain ⟨passed, way⟩ := h
  rcases way.cases_feeds with ⟨rfl, -⟩ | ⟨p, before, -, -, feeds⟩
  · exact List.length_pos_iff.mpr hf.nonempty
  · exact (hf.feeds_lt feeds).2

end Function

namespace RangeTable

/-- Nothing is known about names without a place. -/
theorem rangeOf_of_size_le {t : RangeTable} {n : NameId} (names : t.names.length ≤ t.size)
    (h : t.size ≤ n) : t.rangeOf n = .varying := by
  have entry : t.get? n = none := by
    rw [get?, List.getElem?_eq_none (by exact h)]
    rfl
  have untracked : (t.typeOf n).isTracked = false := by
    rw [typeOf, List.getElem?_eq_none (Nat.le_trans names h)]
    rfl
  rw [rangeOf, entry, Option.getD_none, initial]
  simp [untracked]

end RangeTable

namespace RangeResult

/-- The result as an answer to questions. -/
def query (r : RangeResult) (f : Function) (config : Config) : Query :=
  ⟨fun n => (r.range? n).getD .varying, (RangeTable.ofFunction f config).typeOf⟩

/-- Nothing is known about the result of a comparison that can run, or it is what the ranges of the
    result tell. -/
def Current (r : RangeResult) (f : Function) (config : Config) : Prop :=
  ∀ block index dest op lhs rhs, r.isBlockExecutable block = true →
    f.stmtAt? block index = some (.assign dest (.compare op lhs rhs)) →
    r.range? dest = some .varying ∨
      r.range? dest = some ((r.query f config).compareResult op lhs rhs (f.runType config dest))

/-- The edge from one block to another can be taken. -/
def Takes (r : RangeResult) (g : Function) (src dst : BlockId) : Prop :=
  ∃ id, g.findEdge? src dst = some id ∧ r.isEdgeExecutable id = true

section Harvest

variable {f : Function} {config : Config} {s : EngineState} {converged : Bool}
  {records : List AssertionRecord}

theorem range?_harvest {n : NameId} (h : n < s.table.size) :
    (harvest f s converged records).range? n = some (s.table.rangeOf n) := by
  simp [range?, harvest, RangeTable.toList, h]

/-- The result answers as the table does. -/
theorem query_harvest (names : s.table.names = (RangeTable.ofFunction f config).names)
    (places : f.nameCount ≤ s.table.size) :
    (harvest f s converged records).query f config = s.table.query := by
  have types : (RangeTable.ofFunction f config).typeOf = s.table.typeOf := by
    funext n
    rw [RangeTable.typeOf, RangeTable.typeOf, names]
  have listed : s.table.names.length ≤ s.table.size := by
    rw [names]
    simpa [RangeTable.ofFunction, Function.nameCount] using places
  rw [query, RangeTable.query, types]
  congr 1
  funext n
  by_cases known : n < s.table.size
  · rw [range?_harvest known, Option.getD_some]
  · have beyond := Nat.le_of_not_lt known
    rw [RangeTable.rangeOf_of_size_le listed beyond, range?,
      List.getElem?_eq_none (by simpa [harvest, RangeTable.toList] using beyond)]
    rfl

/-- Comparisons that are up to date in the result are so in the table. -/
theorem Current.engine {oracle : EvolutionOracle} (hf : f.Valid)
    (names : s.table.names = (RangeTable.ofFunction f config).names)
    (places : f.nameCount ≤ s.table.size) (h : (harvest f s converged records).Current f config) :
    (Engine.ofFunction f config oracle).Current s := by
  intro block index dest op lhs rhs executable hstmt
  have exists_ : dest < f.nameCount := hf.dest_lt hstmt
  have found := h block index dest op lhs rhs executable hstmt
  rw [range?_harvest (Nat.lt_of_lt_of_le exists_ places), query_harvest names places,
    Function.runType, ← RangeTable.typeOf_eq names exists_] at found
  refine found.imp (fun unknown => ?_) Option.some.inj
  rw [Option.some.inj unknown]
  rfl

end Harvest

end RangeResult

namespace Function

/-- Every use is dominated by its definition, names are integers or truth values, operands have the
    types of their places, and control cannot circle without an edge back to a dominator. -/
structure Tame (f : Function) : Prop where
  valid : f.Valid
  uses : f.UsesDominated
  integral : f.Integral
  limits : f.LimitsTyped
  unary : f.UnaryTyped
  reducible : f.Reducible

end Function

namespace Pass

variable {config : Config} {f g : Function} {records : List AssertionRecord} {r : RangeResult}
  {stripped : Function} {x : ExecState}

theorem valid_of_run {pass : Pass} (h : pass.run f = .ok (stripped, r)) : f.Valid := by
  unfold run at h
  cases valid : f.validate with
  | error e =>
      rw [valid] at h
      cases h
  | ok _ => exact Function.valid_of_validate valid

/-- The result is what a propagation through the prepared function leaves behind. -/
theorem run_eq_ok {pass : Pass} (prepared : pass.prepare f = (g, records))
    (h : pass.run f = .ok (stripped, r)) : ∃ s converged,
      (Engine.ofFunction g pass.config pass.oracle).run = (s, converged) ∧
      r = .harvest g s converged records := by
  unfold run at h
  cases valid : f.validate with
  | error e =>
      rw [valid] at h
      cases h
  | ok _ =>
      rw [valid] at h
      simp only [prepared, bind, Except.bind, pure, Except.pure, Except.ok.injEq,
        Prod.mk.injEq] at h
      exact ⟨_, _, rfl, h.2.symm⟩

/-- What a propagation through the prepared function leaves behind is the result. -/
theorem run_of_propagation {s : EngineState} {converged : Bool} (valid : f.validate = .ok ())
    (prepared : (ofConfig config).prepare f = (g, records))
    (run : (Engine.ofFunction g config (.induction config.strictOverflow)).run = (s, converged)) :
    (ofConfig config).run f = .ok (g.stripAssertions.1, .harvest g s converged records) := by
  have propagated : (Engine.ofFunction g (ofConfig config).config (ofConfig config).oracle).run =
      (s, converged) := run
  simp only [Pass.run, valid, prepared, propagated, bind, Except.bind, pure, Except.pure]

/-- The result of an analysis is true of every execution of the prepared function in which its
    assertions hold. -/
theorem run_holds_prepared (prepared : (ofConfig config).prepare f = (g, records))
    (result : (ofConfig config).run f = .ok (stripped, r)) (tame : g.Tame)
    (quiet : config.useEvolution = true → ∀ l ∈ g.loops.loops, g.Unraised l)
    (current : r.Current g config) (arrives : g.Arrives config x) :
    r.isBlockExecutable x.block = true ∧ (∀ target, g.Leaves x target → r.Takes g x.block target) ∧
    ∀ n v, g.Dominated n x.block x.index → x.env n = some v →
      ∃ vr, r.range? n = some vr ∧ vr.Holds x.env.total (g.runType config n) v := by
  obtain ⟨s, converged, run, rfl⟩ := run_eq_ok prepared result
  obtain ⟨hf, uses, integral, limits, unary, reducible⟩ := tame
  have places : g.nameCount ≤ s.table.size := Engine.nameCount_le_size run
  have consistent := arrives.reaches.consistent hf uses
  have named : ∀ n, g.Dominated n x.block x.index → n < g.nameCount := by
    rintro n ⟨site, found, -⟩
    exact Function.defSite?_lt found
  cases converged with
  | false =>
      obtain ⟨blocks, edges, names⟩ := Engine.run_surrendered hf run
      refine ⟨blocks _ (hf.reachable_lt consistent.way), fun target leave => ?_,
        fun n v set _ => ?_⟩
      · obtain ⟨b, hb, -, member⟩ := leave.mem_targets
        obtain ⟨id, found⟩ := hf.findEdge?_target hb member
        obtain ⟨e, he, -⟩ := Function.findEdge?_eq_some found
        exact ⟨id, found, edges id e he⟩
      · have known := named n set
        refine ⟨_, RangeResult.range?_harvest (Nat.lt_of_lt_of_le known places), ?_⟩
        rw [names n known]
        trivial
  | true =>
      have anchored : (Engine.ofFunction g config (.induction config.strictOverflow)).Anchored :=
        Engine.induction_anchored hf
      have rest := Engine.run_atRest hf limits anchored run
      obtain ⟨rank, ranked⟩ := reducible
      have course : ∀ y target, g.Reaches config y → g.Leaves y target →
          (Engine.ofFunction g config (.induction config.strictOverflow)).OnCourse rank y
            target := by
        intro y target reaches leave
        by_cases evolves : config.useEvolution = true
        · exact Engine.induction_onCourse hf uses integral ranked (quiet evolves) reaches leave
        · exact fun _ _ _ _ _ used => absurd used evolves
      have true_ := rest.arrives hf uses integral limits unary ranked
        (current.engine hf rest.fitting.names places) arrives course
      obtain ⟨executable, known, agrees, dominated⟩ := true_
      refine ⟨executable, fun target leave =>
        rest.taken hf uses integral consistent agrees dominated executable leave, ?_⟩
      intro n v set hv
      have exists_ := named n set
      have tracked : (s.table.typeOf n).isTracked = true :=
        ScalarType.isTracked_of_isIntegral (rest.fitting.isIntegral integral exists_)
      have describes := agrees n (dominated n set (Option.isSome_of_eq_some hv)) tracked
      refine ⟨_, RangeResult.range?_harvest (Nat.lt_of_lt_of_le exists_ places), ?_⟩
      have typed : s.table.typeOf n = g.runType config n :=
        RangeTable.typeOf_eq rest.fitting.names exists_
      rw [← typed, ← Env.total_eq hv]
      exact describes.holds

end Pass

end RangeFlow
