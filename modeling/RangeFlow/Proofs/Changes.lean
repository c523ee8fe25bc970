import RangeFlow.Proofs.Dominance
import RangeFlow.Proofs.Fixpoint
import RangeFlow.Proofs.History
import RangeFlow.Proofs.Ranks

/-! # Merges change a bounded number of times

While a merge is computed from the same number of edges it is widened, and each change of its ends
raises their rank. Another edge may bring the rank down, but there are no more edges than operands.
How large the constants are, how many bits a type has and how often a loop is run does not matter.
A merge with a single operand is never widened, and in a loop its ends may move step by step. A
magnitude passes the ends of its operand on, and if they are those of another type, the ends of a
merge may go in circles.
-/

namespace RangeFlow

namespace Engine

variable {en : Engine} {s s' : EngineState} {block : BlockId}

/-- Without edges nothing is merged. -/
theorem phiContributions_pos {phi : Phi} (bounded : (en.mergedRange s block phi).isBounded = true) :
    0 < (en.phiContributions s block phi).length := by
  apply List.length_pos_iff.mpr
  intro none_
  rw [mergedRange, none_] at bounded
  cases bounded

/-- A visit to a merge counts its edges anew if that gives something to know. It stores the merged
    range, a widened one if the number of edges is the same, or that nothing is known. -/
theorem visitPhi_stored (s : EngineState) (block : BlockId)
    (noEvolution : en.config.useEvolution = false) {phi : Phi}
    (several : 2 ≤ phi.operands.length) :
    (∃ vr, (vr = .varying ∨ vr.isUndefined = true) ∧
      (en.visitPhi s block phi).1 = (s.store phi.dest vr).1) ∨
    (en.mergedRange s block phi).isBounded = true ∧ ∃ vr, (en.visitPhi s block phi).1 =
        ({ s with phiEdges := s.phiEdges.set phi.dest (en.phiContributions s block phi).length }
          |>.store phi.dest vr).1 ∧
      (vr = .varying ∨
        vr = en.mergedRange s block phi ∧ ((s.table.rangeOf phi.dest).isUndefined = true ∨
          s.phiEdges[phi.dest]? ≠ some (en.phiContributions s block phi).length) ∨
        (s.table.rangeOf phi.dest).isUndefined = false ∧ ∃ before,
          en.widen? before block phi.dest (s.table.typeOf phi.dest) (s.table.rangeOf phi.dest)
            (en.mergedRange s block phi) = some vr) := by
  unfold visitPhi
  dsimp only
  rw [← mergedRange]
  split
  · rw [giveUpPhi_eq noEvolution]
    exact .inl ⟨.varying, .inl rfl, rfl⟩
  · next known =>
      split
      · next undefined => exact .inl ⟨_, .inr undefined, rfl⟩
      · next defined =>
          have bounded : (en.mergedRange s block phi).isBounded = true := by
            apply Extent.isBounded_of_ne
            · simpa [ValueRange.isUndefined] using defined
            · simpa [ValueRange.isVarying] using known
          have edges := phiContributions_pos bounded
          refine .inr ⟨bounded, ?_⟩
          split
          · next again =>
              simp only [Bool.and_eq_true, Bool.not_eq_true'] at again
              split
              · next widened hwiden => exact ⟨widened, rfl, .inr (.inr ⟨again.2, _, hwiden⟩)⟩
              · rw [giveUpPhi_eq noEvolution]
                exact ⟨.varying, rfl, .inl rfl⟩
          · next first =>
              refine ⟨_, rfl, .inr (.inl ⟨rfl, ?_⟩)⟩
              have operands : 1 < phi.operands.length := several
              simp only [edges, operands, decide_true, Bool.true_and, Bool.and_eq_true,
                beq_iff_eq, Bool.not_eq_true', not_and, Bool.not_eq_false] at first
              by_cases same : s.phiEdges[phi.dest]? = some (en.phiContributions s block phi).length
              · exact .inl (first same)
              · exact .inr same

theorem phiContributions_length (en : Engine) (s : EngineState) (block : BlockId) (phi : Phi) :
    (en.phiContributions s block phi).length = phi.operands.countP fun o =>
      (en.f.findEdge? o.predecessor block).any s.edgeExecutable := by
  unfold phiContributions
  rw [List.length_filterMap_eq_countP]
  apply List.countP_congr
  intro o _
  cases en.f.findEdge? o.predecessor block with
  | none => rfl
  | some edge => cases executable : s.edgeExecutable edge <;> simp [executable]

theorem Move.phiContributions_le (move : en.Move s s') (block : BlockId) (phi : Phi) :
    (en.phiContributions s block phi).length ≤ (en.phiContributions s' block phi).length := by
  rw [phiContributions_length, phiContributions_length]
  apply List.countP_mono_left
  intro o _ executable
  obtain ⟨edge, found, before⟩ := (Option.any_eq_true _ _).mp executable
  exact (Option.any_eq_true _ _).mpr ⟨edge, found, move.edges before⟩

theorem phiContribution_trimmed (hq : s.table.query.Trimmed) {ty : ScalarType}
    (tracked : ty.isTracked = true) {o : Operand} (h : s.table.query.Typed ty o) (edge : EdgeId) :
    (en.phiContribution s edge o).Trimmed ty := by
  have known : (s.table.query.operandRange o).Trimmed ty := Query.operandRange_trimmed hq tracked h
  cases o with
  | const c => exact known
  | name n =>
      simp only [phiContribution]
      apply ValueRange.trimmed_ite
      · exact ValueRange.trimmed_ite (ValueRange.varying_trimmed ty)
          (ValueRange.trimmed_withEquiv.mpr known)
      · exact ValueRange.trimmed_ite (ValueRange.interval_trimmed ty _ _) known

theorem mergedRange_trimmed (en : Engine) (block : BlockId) (hq : s.table.query.Trimmed) {phi : Phi}
    (tracked : (s.table.typeOf phi.dest).isTracked = true)
    (typed : ∀ o ∈ phi.operands, s.table.query.Typed (s.table.typeOf phi.dest) o.value) :
    (en.mergedRange s block phi).Trimmed (s.table.typeOf phi.dest) := by
  refine ValueRange.foldl_meet_trimmed (fun vr hvr => ?_) (Extent.trimmed_undefined _)
  obtain ⟨o, ho, edge, -, -, rfl⟩ := mem_phiContributions.mp hvr
  exact phiContribution_trimmed hq tracked (typed o ho) edge

end Engine

namespace RangeTable

variable {f : Function} {config : Config} {t t' : RangeTable}

/-- The table of a function, with ranges that are trimmed. -/
structure Tidy (f : Function) (config : Config) (t : RangeTable) : Prop where
  names : t.names = (RangeTable.ofFunction f config).names
  trimmed : t.query.Trimmed

/-- Ranges may be given up, and others stored that are trimmed. -/
theorem Tidy.of_ranges (h : t.Tidy f config) (names : t'.names = t.names)
    (ranges : ∀ n, (t.typeOf n).isTracked = true → t'.rangeOf n = t.rangeOf n ∨
      (t'.rangeOf n).Trimmed (t.typeOf n)) : t'.Tidy f config := by
  refine ⟨names.trans h.names, fun n tracked => ?_⟩
  simp only [query, typeOf_eq_of_names names] at tracked ⊢
  rcases ranges n tracked with same | trimmed
  · rw [same]
    exact h.trimmed n tracked
  · exact trimmed

theorem Tidy.update (h : t.Tidy f config) {n : NameId} {vr : ValueRange}
    (new : (t.typeOf n).isTracked = true → vr.Trimmed (t.typeOf n)) :
    (t.update n vr).1.Tidy f config := by
  refine h.of_ranges (update_names t n vr) fun m tracked => ?_
  by_cases same : m = n
  · subst same
    right
    rcases rangeOf_update_self t m vr with stored | unknown
    · rw [stored]
      exact new tracked
    · rw [unknown]
      exact ValueRange.varying_trimmed _
  · exact .inl (rangeOf_update_of_ne t vr same)

theorem ofFunction_tidy (f : Function) (config : Config) :
    (RangeTable.ofFunction f config).Tidy f config := by
  refine ⟨rfl, fun n _ => ?_⟩
  simp only [query, rangeOf_ofFunction, initial]
  split
  · exact ValueRange.varying_trimmed _
  · split
    · exact ValueRange.trimmed_ite (ValueRange.nonnull_trimmed _) (ValueRange.varying_trimmed _)
    · exact ValueRange.varying_trimmed _
    · exact Extent.trimmed_undefined _
    · exact Extent.trimmed_undefined _

end RangeTable

namespace Engine

variable {en : Engine} {s s' : EngineState} {block : BlockId} {phi : Phi}

theorem visitPhi_tidy (hf : en.f.Valid) (noEvolution : en.config.useEvolution = false)
    (h : s.table.Tidy en.f en.config) {index : Nat}
    (hphi : en.f.phiAt? block index = some phi) :
    (en.visitPhi s block phi).1.table.Tidy en.f en.config := by
  have merged : (s.table.typeOf phi.dest).isTracked = true →
      (en.mergedRange s block phi).Trimmed (s.table.typeOf phi.dest) := fun tracked =>
    mergedRange_trimmed en block h.trimmed tracked (RangeTable.phi_typed h.names hf hphi tracked)
  obtain ⟨before, ⟨phiEdges, rfl⟩, direct | ⟨old, widened, hwiden, direct⟩ | givenUp⟩ :=
    visitPhi_cases en s block phi
  · rw [direct]
    exact h.update merged
  · rw [direct]
    exact h.update fun tracked => widen?_trimmed noEvolution (merged tracked) hwiden
  · rw [givenUp, giveUpPhi_eq noEvolution]
    exact h.update fun _ => ValueRange.varying_trimmed _

theorem Move.tidy (move : en.Move s s') (hf : en.f.Valid) (magnitudes : en.f.MagnitudesTyped)
    (noEvolution : en.config.useEvolution = false) (h : s.table.Tidy en.f en.config) :
    s'.table.Tidy en.f en.config := by
  cases move with
  | keep _ names ranges =>
      refine h.of_ranges names fun n _ => (ranges n).imp_right fun unknown => ?_
      rw [unknown]
      exact ValueRange.varying_trimmed _
  | assign _ hstmt table =>
      rw [table]
      exact h.update fun tracked => Query.rhsResult_trimmed h.trimmed tracked
        (RangeTable.passes_typed h.names hf magnitudes hstmt tracked)
  | merge _ hphi table =>
      rw [table]
      exact visitPhi_tidy hf noEvolution h hphi

/-- From how many edges the merge of a name has last been computed, and how far its ends are from
    giving nothing to know. The first edge counts as the first rank. -/
def level (s : EngineState) (n : NameId) : Nat :=
  4 * (s.phiEdges[n]?).getD 0 + (s.table.rangeOf n).extent.rank (s.table.typeOf n) - 4

/-- What holds between the visits to a merge. -/
structure Ready (en : Engine) (block : BlockId) (phi : Phi) (s : EngineState) : Prop where
  tidy : s.table.Tidy en.f en.config
  untracked : (s.table.typeOf phi.dest).isTracked = false →
    (s.table.rangeOf phi.dest).isVarying = true
  counts : s.phiEdges.length = en.f.nameCount
  /-- Edges do not get lost. -/
  edges : (s.phiEdges[phi.dest]?).getD 0 ≤ (en.phiContributions s block phi).length

/-- The ends of a name stay what they are, or its level rises. -/
def Climbs (s s' : EngineState) (n : NameId) : Prop :=
  (s'.table.rangeOf n).extent.interval = (s.table.rangeOf n).extent.interval ∧
    level s n ≤ level s' n ∨ level s n < level s' n

theorem climbs_of_interval {n : NameId} (types : s'.table.typeOf n = s.table.typeOf n)
    (edges : (s.phiEdges[n]?).getD 0 ≤ (s'.phiEdges[n]?).getD 0)
    (same : (s'.table.rangeOf n).extent.interval = (s.table.rangeOf n).extent.interval) :
    Climbs s s' n := by
  refine .inl ⟨same, ?_⟩
  unfold level
  rw [types, Extent.rank_congr same]
  omega

/-- To know nothing any more is further than anything else. -/
theorem climbs_of_varying {n : NameId} (types : s'.table.typeOf n = s.table.typeOf n)
    (edges : (s.phiEdges[n]?).getD 0 ≤ (s'.phiEdges[n]?).getD 0)
    (new : (s'.table.rangeOf n).isVarying = true) : Climbs s s' n := by
  have unknown : (s'.table.rangeOf n).extent = .varying := by
    simpa [ValueRange.isVarying] using new
  by_cases before : (s.table.rangeOf n).extent = .varying
  · apply climbs_of_interval types edges
    rw [unknown, before]
  · right
    have lower : (s.table.rangeOf n).extent.rank (s.table.typeOf n) < 5 := Extent.rank_lt before
    have greatest : (s'.table.rangeOf n).extent.rank (s'.table.typeOf n) = 5 := by
      rw [unknown]
      rfl
    unfold level
    omega

/-- A range that is stored keeps the ends or takes them further if it has no value, or no end, or
    the same ends, or is itself further. -/
theorem store_climbs {n : NameId} {vr : ValueRange} {phiEdges : List Nat}
    (edges : (s.phiEdges[n]?).getD 0 ≤ (phiEdges[n]?).getD 0)
    (further : (s.table.rangeOf n).isVarying = false → vr = .varying ∨ vr.isUndefined = true ∨
      vr.extent.interval = (s.table.rangeOf n).extent.interval ∨
      level s n < 4 * (phiEdges[n]?).getD 0 + vr.extent.rank (s.table.typeOf n) - 4) :
    Climbs s (EngineState.store { s with phiEdges } n vr).1 n := by
  have types : (s.table.update n vr).1.typeOf n = s.table.typeOf n :=
    RangeTable.typeOf_eq_of_names (RangeTable.update_names s.table n vr) n
  have givesUp : ((s.table.update n vr).1.rangeOf n).isVarying = true →
      Climbs s (EngineState.store { s with phiEdges } n vr).1 n :=
    fun varying => climbs_of_varying types edges varying
  have keeps : ((s.table.update n vr).1.rangeOf n).extent.interval =
      (s.table.rangeOf n).extent.interval →
      Climbs s (EngineState.store { s with phiEdges } n vr).1 n :=
    fun interval => climbs_of_interval types edges interval
  cases known : (s.table.rangeOf n).isVarying with
  | true => exact givesUp (RangeTable.isVarying_update known)
  | false =>
      rcases RangeTable.rangeOf_update_self s.table n vr with stored | varying
      · rcases further known with rfl | undefined | interval | climbs
        · exact givesUp (by rw [stored]; rfl)
        · rcases RangeTable.rangeOf_update_undefined (t := s.table) (n := n) undefined with
            kept | varying
          · exact keeps (by rw [kept])
          · exact givesUp (by rw [varying]; rfl)
        · exact keeps (by rw [stored, interval])
        · right
          have after : level (EngineState.store { s with phiEdges } n vr).1 n =
              4 * (phiEdges[n]?).getD 0 +
                ((s.table.update n vr).1.rangeOf n).extent.rank
                  ((s.table.update n vr).1.typeOf n) - 4 := rfl
          rw [after, types, stored]
          exact climbs
      · exact givesUp (by rw [varying]; rfl)

/-- Another edge counts for more than what the ends may have lost. -/
theorem level_lt_of_first {n : NameId} {count : Nat} {vr : ValueRange}
    (inBounds : n < s.phiEdges.length) (some_ : 0 < count)
    (edges : (s.phiEdges[n]?).getD 0 ≤ count)
    (known : (s.table.rangeOf n).isVarying = false) (bounded : vr.isBounded = true)
    (first : (s.table.rangeOf n).isUndefined = true ∨ s.phiEdges[n]? ≠ some count) :
    level s n < 4 * count + vr.extent.rank (s.table.typeOf n) - 4 := by
  have after : 0 < vr.extent.rank (s.table.typeOf n) := by
    apply Extent.rank_pos
    intro undefined
    rw [ValueRange.isBounded, undefined] at bounded
    cases bounded
  unfold level
  rcases first with undefined | other
  · have nothing : (s.table.rangeOf n).extent = .undefined := by
      simpa [ValueRange.isUndefined] using undefined
    rw [nothing, Extent.rank_undefined]
    omega
  · have before : (s.table.rangeOf n).extent.rank (s.table.typeOf n) < 5 := by
      apply Extent.rank_lt
      simpa [ValueRange.isVarying] using known
    rw [List.getElem?_eq_getElem inBounds] at other edges ⊢
    rw [Option.getD_some] at edges ⊢
    have fewer : s.phiEdges[n] ≠ count := fun same => other (congrArg some same)
    omega

namespace Ready

variable (ready : en.Ready block phi s) (noEvolution : en.config.useEvolution = false)

include ready noEvolution

/-- A widened range has the same ends or is further. -/
theorem widen?_climbs {before : EngineState} {vr : ValueRange}
    (known : (s.table.rangeOf phi.dest).isVarying = false)
    (defined : (s.table.rangeOf phi.dest).isUndefined = false)
    (bounded : (en.mergedRange s block phi).isBounded = true)
    (widened : en.widen? before block phi.dest (s.table.typeOf phi.dest)
      (s.table.rangeOf phi.dest) (en.mergedRange s block phi) = some vr) :
    vr.extent.interval = (s.table.rangeOf phi.dest).extent.interval ∨
      level s phi.dest < 4 * (en.phiContributions s block phi).length +
        vr.extent.rank (s.table.typeOf phi.dest) - 4 := by
  have tracked : (s.table.typeOf phi.dest).isTracked = true := by
    by_contra untracked
    rw [ready.untracked (by simpa using untracked)] at known
    cases known
  have oldTrimmed : (s.table.rangeOf phi.dest).Trimmed (s.table.typeOf phi.dest) :=
    ready.tidy.trimmed phi.dest tracked
  have oldBounded : (s.table.rangeOf phi.dest).isBounded = true := by
    apply Extent.isBounded_of_ne
    · simpa [ValueRange.isUndefined] using defined
    · simpa [ValueRange.isVarying] using known
  refine (widen?_rank noEvolution oldTrimmed oldBounded bounded widened).imp_right fun climbs => ?_
  have some_ := phiContributions_pos bounded
  have edges := ready.edges
  unfold level
  omega

/-- A visit to a merge of several operands keeps its ends or takes it further. -/
theorem visitPhi_climbs (hf : en.f.Valid) {index : Nat}
    (hphi : en.f.phiAt? block index = some phi) (several : 2 ≤ phi.operands.length) :
    Climbs s (en.visitPhi s block phi).1 phi.dest := by
  rcases visitPhi_stored s block noEvolution several with
    ⟨vr, nothing, stored⟩ | ⟨bounded, vr, stored, found⟩
  · rw [stored]
    refine store_climbs (Nat.le_refl _) fun _ => ?_
    exact nothing.imp_right .inl
  · rw [stored]
    have inBounds : phi.dest < s.phiEdges.length := by
      rw [ready.counts]
      exact hf.phi_dest_lt hphi
    have edges := ready.edges
    refine store_climbs ?_ fun known => ?_
    · rw [List.getElem?_set_self inBounds]
      exact edges
    · rw [List.getElem?_set_self inBounds, Option.getD_some]
      rcases found with varying | ⟨rfl, first⟩ | ⟨defined, before, widened⟩
      · exact .inl varying
      · have some_ := phiContributions_pos bounded
        exact .inr (.inr (.inr (level_lt_of_first inBounds some_ edges known bounded first)))
      · exact .inr (.inr (ready.widen?_climbs noEvolution known defined bounded widened))

end Ready

theorem visitPhi_phiEdges (noEvolution : en.config.useEvolution = false) (s : EngineState)
    (block : BlockId) (phi : Phi) : (en.visitPhi s block phi).1.phiEdges = s.phiEdges ∨
      (en.visitPhi s block phi).1.phiEdges =
        s.phiEdges.set phi.dest (en.phiContributions s block phi).length := by
  unfold visitPhi
  dsimp only
  split
  · rw [giveUpPhi_eq noEvolution]
    exact .inl rfl
  · split
    · exact .inl rfl
    · right
      split
      · split
        · rfl
        · rw [giveUpPhi_eq noEvolution]
          rfl
      · rfl

namespace Move

/-- A move visits the merge, or keeps its range or gives it up. -/
theorem visits_or_keeps (move : en.Move s s') (hf : en.f.Valid)
    (noEvolution : en.config.useEvolution = false) {index : Nat}
    (hphi : en.f.phiAt? block index = some phi) :
    (∃ visits, s'.table = (en.visitPhi { s with visits } block phi).1.table ∧
      s'.phiEdges = (en.visitPhi { s with visits } block phi).1.phiEdges) ∨
    (s'.table.rangeOf phi.dest = s.table.rangeOf phi.dest ∨
      s'.table.rangeOf phi.dest = .varying) ∧
      s'.phiEdges[phi.dest]? = s.phiEdges[phi.dest]? := by
  -- a name is set at one place, so every other visit leaves the range alone
  have sets : Sets en.f phi.dest (.phi block index) := ⟨phi, hphi, rfl⟩
  cases move with
  | keep _ _ ranges phiEdges => exact .inr ⟨ranges phi.dest, by rw [phiEdges]⟩
  | @assign _ block' index' dest rhs hstmt table phiEdges =>
      have other : phi.dest ≠ dest := by
        intro same
        have sets' : Sets en.f phi.dest (.stmt block' index') := ⟨rhs, same ▸ hstmt⟩
        cases sets.unique hf sets'
      refine .inr ⟨.inl ?_, by rw [phiEdges]⟩
      rw [table]
      exact RangeTable.rangeOf_update_of_ne s.table _ other
  | @merge _ block' index' visits phi' hphi' table phiEdges =>
      by_cases same : phi'.dest = phi.dest
      · have sets' : Sets en.f phi.dest (.phi block' index') := ⟨phi', hphi', same⟩
        cases sets.unique hf sets'
        rw [hphi] at hphi'
        cases hphi'
        exact .inl ⟨visits, table, phiEdges⟩
      · refine .inr ⟨.inl ?_, ?_⟩
        · obtain ⟨vr, stored⟩ := visitPhi_table en { s with visits } block' phi'
          rw [table, stored]
          exact RangeTable.rangeOf_update_of_ne s.table _ (Ne.symm same)
        · rw [phiEdges]
          rcases visitPhi_phiEdges noEvolution { s with visits } block' phi' with kept | set
          · rw [kept]
          · rw [set, List.getElem?_set_ne same]

/-- What holds between the visits to a merge is kept by every move. -/
theorem ready (move : en.Move s s') (hf : en.f.Valid) (magnitudes : en.f.MagnitudesTyped)
    (noEvolution : en.config.useEvolution = false) {index : Nat}
    (hphi : en.f.phiAt? block index = some phi) (h : en.Ready block phi s) :
    en.Ready block phi s' := by
  have more := move.phiContributions_le block phi
  refine ⟨move.tidy hf magnitudes noEvolution h.tidy, ?_, ?_, ?_⟩
  · rw [RangeTable.typeOf_eq_of_names move.names]
    exact fun untracked => move.varying (h.untracked untracked)
  · rw [← h.counts]
    cases move with
    | keep _ _ _ phiEdges => rw [phiEdges]
    | assign _ _ _ phiEdges => rw [phiEdges]
    | @merge _ block' _ visits phi' _ _ phiEdges =>
        rw [phiEdges]
        rcases visitPhi_phiEdges noEvolution { s with visits } block' phi' with kept | set
        · rw [kept]
        · rw [set, List.length_set]
  · refine Nat.le_trans ?_ more
    rcases move.visits_or_keeps hf noEvolution hphi with ⟨visits, -, phiEdges⟩ | ⟨-, phiEdges⟩
    · rw [phiEdges]
      rcases visitPhi_phiEdges noEvolution { s with visits } block phi with kept | set
      · rw [kept]
        exact h.edges
      · rw [set, List.getElem?_set_self (by rw [h.counts]; exact hf.phi_dest_lt hphi)]
        exact Nat.le_refl _
    · rw [phiEdges]
      exact h.edges

/-- Every move keeps the ends of a merge or takes it further. -/
theorem climbs (move : en.Move s s') (hf : en.f.Valid)
    (noEvolution : en.config.useEvolution = false) {index : Nat}
    (hphi : en.f.phiAt? block index = some phi) (several : 2 ≤ phi.operands.length)
    (ready : en.Ready block phi s) : Climbs s s' phi.dest := by
  rcases move.visits_or_keeps hf noEvolution hphi with ⟨visits, table, phiEdges⟩ |
    ⟨range, phiEdges⟩
  · have visiting : en.Ready block phi { s with visits } :=
      ⟨ready.tidy, ready.untracked, ready.counts, ready.edges⟩
    have visited := visiting.visitPhi_climbs noEvolution hf hphi several
    unfold Climbs level at visited ⊢
    rw [table, phiEdges]
    exact visited
  · have types := RangeTable.typeOf_eq_of_names move.names phi.dest
    have edges : (s.phiEdges[phi.dest]?).getD 0 ≤ (s'.phiEdges[phi.dest]?).getD 0 := by
      rw [phiEdges]
    rcases range with same | unknown
    · exact climbs_of_interval types edges (by rw [same])
    · exact climbs_of_varying types edges (by rw [unknown]; rfl)

end Move

theorem start_ready (en : Engine) (block : BlockId) (phi : Phi) :
    en.Ready block phi en.start := by
  refine ⟨RangeTable.ofFunction_tidy en.f en.config, ?_, List.length_replicate, ?_⟩
  · intro untracked
    change ((RangeTable.ofFunction en.f en.config).rangeOf phi.dest).isVarying = true
    change ((RangeTable.ofFunction en.f en.config).typeOf phi.dest).isTracked = false at untracked
    rw [RangeTable.rangeOf_ofFunction, RangeTable.initial, untracked]
    rfl
  · have none_ : (en.start.phiEdges[phi.dest]?).getD 0 = 0 := by
      simp only [start, List.getElem?_replicate]
      split <;> rfl
    rw [none_]
    exact Nat.zero_le _

theorem Ready.level_le (h : en.Ready block phi s) :
    level s phi.dest ≤ 4 * phi.operands.length + 1 := by
  have edges := Nat.le_trans h.edges (List.length_filterMap_le _ phi.operands)
  have rank := Extent.rank_le (s.table.typeOf phi.dest) (s.table.rangeOf phi.dest).extent
  unfold level
  omega

/-- The intervals between the ends that are stored for a name, in the course of a run. -/
def intervals (en : Engine) (n : NameId) : List Extent :=
  en.history.map fun s => (s.table.rangeOf n).extent.interval

/-- How often the ends that are stored for a name change, in the course of a run. -/
def changes (en : Engine) (n : NameId) : Nat := ((en.intervals n).destutter (· ≠ ·)).length - 1

/-- The ends of a merge of several operands change a few times for each operand, whatever the
    limit on visits is, if magnitudes are taken in the type of their operand. The limits of
    assertions need not be values of their type. -/
theorem changes_le {f : Function} (hf : f.validate = .ok ()) (magnitudes : f.MagnitudesTyped)
    {config : Config} (noEvolution : config.useEvolution = false) {oracle : EvolutionOracle}
    {block : BlockId} {index : Nat} {phi : Phi} (hphi : f.phiAt? block index = some phi)
    (several : 2 ≤ phi.operands.length) :
    (Engine.ofFunction f config oracle).changes phi.dest ≤ 4 * (phi.operands.length + 1) := by
  have valid : (Engine.ofFunction f config oracle).f.Valid := Function.valid_of_validate hf
  obtain ⟨states, same, path⟩ := (Engine.ofFunction f config oracle).history_path
  have step : ∀ s t, (Engine.ofFunction f config oracle).Ready block phi s →
      (Engine.ofFunction f config oracle).Move s t →
      (Engine.ofFunction f config oracle).Ready block phi t ∧ Climbs s t phi.dest := by
    intro s t ready move
    exact ⟨move.ready valid magnitudes noEvolution hphi ready,
      move.climbs valid noEvolution hphi several ready⟩
  -- the level rises with each change and never falls, and it is bounded
  have climbs := path.length_destutter_le step
    (start_ready (Engine.ofFunction f config oracle) block phi)
  have limit := climbs.1.level_le
  have counted := climbs.2
  rw [changes, intervals, same, List.map_cons, List.destutter_cons']
  omega

theorem changes_le_lateMerge :
    (Engine.ofFunction lateMerge lateMergeEngine.config lateMergeEngine.oracle).changes 4 ≤ 12 :=
  changes_le (f := lateMerge) rfl lateMerge_limitsTyped.magnitudes rfl
    (show lateMerge.phiAt? 2 0 = some ⟨4, [⟨1, .const 0⟩, ⟨5, .name 5⟩]⟩ from rfl) (by decide)

end Engine

/-- Counts in a loop whose head is the entry block, so that its merges have one operand. -/
def driftInEntry : Function where
  name := "drift"
  names :=
    [ ⟨.int ⟨5, by decide⟩ .signed, .param 0 false⟩, ⟨.int ⟨5, by decide⟩ .signed, .defined⟩,
      ⟨.int ⟨5, by decide⟩ .signed, .defined⟩, ⟨.int ⟨5, by decide⟩ .signed, .defined⟩,
      ⟨.int ⟨5, by decide⟩ .signed, .defined⟩ ]
  blocks :=
    [ ⟨[⟨2, [⟨0, .name 1⟩]⟩, ⟨3, [⟨0, .const 1⟩]⟩],
        [.assign 4 (.binary .add (.name 2) (.name 3)),
          .assign 1 (.select ⟨.lt, .name 0, .const 0⟩ (.name 4) (.const 0))],
        .branch ⟨.lt, .name 0, .const 5⟩ 0 1, [], false⟩,
      .ofTerminator (.return none) ]

/-- The fixed part for the function, written out. -/
def driftInEntryEngine : Engine where
  f := driftInEntry
  config := { useEvolution := false, insertAssertions := false, maxVisits := 100 }
  oracle := .silent
  dominators := ⟨0, #[some [], some [0]]⟩
  loops := ⟨2, [⟨0, .ofList [0], [0], none, [⟨0, 1⟩], 0, none⟩]⟩
  backEdges := [true, false]

theorem ofFunction_driftInEntry :
    Engine.ofFunction driftInEntry driftInEntryEngine.config driftInEntryEngine.oracle =
      driftInEntryEngine := by
  have tree : driftInEntry.dominators = driftInEntryEngine.dominators := by
    cbv
  have loops : LoopForest.ofGraph driftInEntry.graph driftInEntryEngine.dominators =
      driftInEntryEngine.loops := by
    cbv
  exact driftInEntryEngine.ofFunction_eq tree loops (by decide)

/-- With one operand the ends move by one value at a time: seventeen times, for a type of five
    bits. -/
theorem Engine.changes_driftInEntry :
    let en := Engine.ofFunction driftInEntry driftInEntryEngine.config driftInEntryEngine.oracle
    driftInEntry.validate = .ok () ∧ driftInEntry.UsesDominated ∧
    driftInEntry.phiAt? 0 0 = some ⟨2, [⟨0, .name 1⟩]⟩ ∧
    (en.loops.forHeader? 0).isSome = true ∧ en.run.2 = true ∧
    en.changes 2 = 17 ∧ ¬ en.changes 2 ≤ 4 * (1 + 1) := by
  have counted : driftInEntryEngine.changes 2 = 17 := by
    rfl
  rw [ofFunction_driftInEntry]
  refine ⟨rfl, ?_, rfl, rfl, rfl, counted, ?_⟩
  · exact Function.usesDominated_of_above [[], [0]] (by decide) (by decide)
  · rw [counted]
    decide

/-- A loop that takes the magnitudes of two pointers as bytes. Those of `_7` have the ends 256 and
    509, so that `_11` and `_16` wrap. The complement in `_5` has the ends 1 and 255, where a range
    of bytes would be zero alone. -/
def circling : Function where
  name := "circle"
  names :=
    [ ⟨.int ⟨8, eight_bits⟩ .unsigned, .defined⟩, ⟨.ptr, .param 0 false⟩,
      ⟨.int ⟨8, eight_bits⟩ .unsigned, .param 1 false⟩, ⟨.int ⟨8, eight_bits⟩ .unsigned, .uninit⟩,
      ⟨.ptr, .defined⟩, ⟨.int ⟨8, eight_bits⟩ .unsigned, .defined⟩, ⟨.ptr, .defined⟩ ] ++
    List.replicate 13 ⟨.int ⟨8, eight_bits⟩ .unsigned, .defined⟩
  blocks :=
    [ ⟨[],
        [.assign 4 (.assert 1 (.within 1 255 true)), .assign 5 (.unary .abs (.name 4)),
          .assign 6 (.assert 1 (.within 256 509 false)), .assign 7 (.unary .abs (.name 6)),
          .assign 8 (.assert 2 (.within 1 7 true))],
        .jump 1, [], false⟩,
      ⟨[⟨0, [⟨0, .name 3⟩, ⟨1, .name 19⟩]⟩],
        [.assign 9 (.binary .bitAnd (.name 0) (.const 3)),
          .assign 10 (.assert 0 (.within 0 1 false)),
          .assign 11 (.binary .add (.name 9) (.name 7)),
          .assign 12 (.binary .bitXor (.name 9) (.const 1)),
          .assign 13 (.unary .truthNot (.name 10)), .assign 14 (.copy (.name 0)),
          .assign 15 (.select ⟨.eq, .name 14, .const 1⟩ (.name 11) (.name 5)),
          .assign 16 (.binary .add (.name 12) (.name 7)),
          .assign 17 (.select ⟨.gt, .name 16, .const 0⟩ (.name 8) (.name 13)),
          .assign 18 (.copy (.name 10)),
          .assign 19 (.select ⟨.eq, .name 18, .const 1⟩ (.name 15) (.name 17))],
        .branch ⟨.lt, .name 2, .const 9⟩ 1 2, [], false⟩,
      .ofTerminator (.return none) ]

/-- The fixed part for the function, written out. -/
def circlingEngine : Engine where
  f := circling
  config := { useEvolution := false, insertAssertions := false, maxVisits := 400 }
  oracle := .silent
  dominators := ⟨0, #[some [], some [0], some [1, 0]]⟩
  loops := ⟨3, [⟨1, .ofList [1], [1], some 0, [⟨1, 2⟩], 0, none⟩]⟩
  backEdges := [false, true, false]

theorem ofFunction_circling :
    Engine.ofFunction circling circlingEngine.config circlingEngine.oracle = circlingEngine := by
  have without : DominatorTree.reachedWithout circling.graph 0 =
      #[#[false, false, false], #[true, false, false], #[true, true, false]] := by
    cbv
  have reached : Graph.mark circling.graph.size (circling.graph.postorder 0) =
      #[true, true, true] := by
    cbv
  have tree : circling.dominators = circlingEngine.dominators := by
    rw [Function.dominators, Function.entry,
      DominatorTree.ofGraph_of_stages #[[], [0], [0, 1]] without rfl reached]
    cbv
  have loops : LoopForest.ofGraph circling.graph circlingEngine.dominators =
      circlingEngine.loops := by
    cbv
  exact circlingEngine.ofFunction_eq tree loops (by decide)

/-- With a magnitude of another type the ends go in circles, although the limits of all assertions
    fit: the byte 1 alone, its complement, the bytes 1 to 255, their complement, and so on. -/
theorem Engine.changes_circling :
    let en := Engine.ofFunction circling circlingEngine.config circlingEngine.oracle
    circling.validate = .ok () ∧ circling.UsesDominated ∧
    (∀ b ∈ circling.blocks, ∀ dest subject predicate,
      Stmt.assign dest (.assert subject predicate) ∈ b.stmts →
      circling.LimitsTypedIn (circling.typeOf dest) (.assert subject predicate)) ∧
    circling.phiAt? 1 0 = some ⟨0, [⟨0, .name 3⟩, ⟨1, .name 19⟩]⟩ ∧
    (en.loops.forHeader? 1).isSome = true ∧ en.changes 0 = 14 ∧
    ¬ en.changes 0 ≤ 4 * (2 + 1) := by
  have counted : circlingEngine.changes 0 = 14 := by
    decide +kernel
  rw [ofFunction_circling]
  refine ⟨rfl, ?_, ?_, rfl, rfl, counted, ?_⟩
  · exact Function.usesDominated_of_above [[], [0], [0, 1]] (by decide) (by decide)
  · intro b hb dest subject predicate member
    simp only [circling, List.mem_cons, List.not_mem_nil, or_false] at hb
    rcases hb with rfl | rfl | rfl
    · simp only [List.mem_cons, Stmt.assign.injEq, Rhs.assert.injEq, reduceCtorEq, and_false,
        List.not_mem_nil, or_false, false_or] at member
      rcases member with ⟨rfl, rfl, rfl⟩ | ⟨rfl, rfl, rfl⟩ | ⟨rfl, rfl, rfl⟩ <;>
        exact fun _ => by decide
    · simp only [List.mem_cons, Stmt.assign.injEq, reduceCtorEq, and_false, Rhs.assert.injEq,
        List.not_mem_nil, or_self, or_false, false_or] at member
      obtain ⟨rfl, rfl, rfl⟩ := member
      exact fun _ => by decide
    · simp [Block.ofTerminator] at member
  · rw [counted]
    decide

end RangeFlow
