import RangeFlow.Proofs.Refinement
import RangeFlow.Proofs.Worklist

/-! # Merges cover their operands

The range that a visit stores for a merge is the meet of what its operands contribute, perhaps
widened, and both steps only add values.
-/

namespace RangeFlow

namespace ValueRange

variable {ty : ScalarType} {new : ValueRange}

/-- The range is proper, and holds every value of the type that the other holds. -/
def Widens (ty : ScalarType) (new wider : ValueRange) : Prop :=
  wider.Proper ty ∧ ∀ env v, ty.fits v = true → new.Holds env ty v → wider.Holds env ty v

theorem widens_refl (h : new.Proper ty) : new.Widens ty new := ⟨h, fun _ _ _ holds => holds⟩

/-- What is kept of a complement is that it leaves out one of its ends. -/
theorem widenAnti?_form {minMoved maxMoved : Bool} {wider : ValueRange}
    (hw : new.widenAnti? ty minMoved maxMoved = some wider) :
    ∃ b, (b = new.min ∨ b = new.max) ∧
      wider = (canonical ty (.outside b b)).withEquiv new.equiv := by
  have keep : ∀ b, (if (canonical ty (.outside b b)).isVarying then none
      else some ((canonical ty (.outside b b)).withEquiv new.equiv)) = some wider →
      wider = (canonical ty (.outside b b)).withEquiv new.equiv := by
    intro b kept
    split at kept
    · cases kept
    · exact (Option.some.inj kept).symm
  cases minMoved <;> cases maxMoved
  · cases hw
  · exact ⟨new.min, .inl rfl, keep _ hw⟩
  · exact ⟨new.max, .inr rfl, keep _ hw⟩
  · cases hw

/-- Leaving out one end of the interval that was left out before. -/
theorem widenAnti?_widens (h : new.Proper ty) (anti : new.isAnti = true) {minMoved maxMoved : Bool}
    {wider : ValueRange} (hw : new.widenAnti? ty minMoved maxMoved = some wider) :
    new.Widens ty wider := by
  obtain ⟨extent, equiv⟩ := new
  cases extent with
  | undefined | varying | inside => cases anti
  | outside lo hi =>
      -- either end of the interval lies in it
      have ends : ∀ b, b = lo ∨ b = hi → (Extent.outside b b).Proper ty ∧
          ∀ env v, ty.fits v = true → (Extent.outside lo hi).Holds env ty v →
            ((Extent.outside b b).canonical ty).Holds env ty v := by
        cases h with
        | @outside c d low high order =>
            intro b hb
            obtain ⟨x, rfl, fits, inside⟩ :
                ∃ x, b = .const x ∧ ty.fits x = true ∧ c ≤ x ∧ x ≤ d := by
              rcases hb with rfl | rfl
              · exact ⟨c, rfl, low, Int.le_refl c, order⟩
              · exact ⟨d, rfl, high, order, Int.le_refl d⟩
            refine ⟨.outside fits fits (Int.le_refl x), fun env v hv holds => ?_⟩
            refine (Extent.canonical_outside fits fits).2 (Int.le_refl x) env v hv ?_
            simp only [Extent.Holds, Bound.reading_const] at holds ⊢
            omega
        | apartFrom n offset =>
            rintro b (rfl | rfl) <;> exact ⟨.apartFrom n offset, fun _ _ _ holds => holds⟩
      have keep : ∀ b, b = lo ∨ b = hi →
          (if (canonical ty (.outside b b)).isVarying then none
            else some ((canonical ty (.outside b b)).withEquiv equiv)) = some wider →
          Widens ty ⟨.outside lo hi, equiv⟩ wider := by
        intro b hb kept
        split at kept
        · cases kept
        · cases kept
          obtain ⟨proper, holds⟩ := ends b hb
          refine ⟨?_, fun env v hv h => ?_⟩
          · rw [Proper, withEquiv_extent]
            exact proper.canonical
          · rw [Holds, withEquiv_extent]
            exact holds env v hv h
      cases minMoved <;> cases maxMoved
      · cases hw
      · exact keep lo (.inl rfl) hw
      · exact keep hi (.inr rfl) hw
      · cases hw

theorem pushEnds_widens (h : new.Proper ty) (range_ : new.isRange = true)
    (mayOverflow minMoved maxMoved : Bool) :
    new.Widens ty (new.pushEnds ty mayOverflow minMoved maxMoved) := by
  obtain ⟨extent, equiv⟩ := new
  cases extent with
  | undefined | varying | outside => cases range_
  | inside lo hi =>
      have low := Extent.Proper.lower h
      have high := Extent.Proper.upper h
      unfold pushEnds
      dsimp only
      refine ⟨?_, fun env v hv holds => ?_⟩
      · rw [Proper, withEquiv_extent]
        refine .inside ?_ ?_
        · split
          · split
            · exact ⟨trivial, by simp⟩
            · exact Bound.isLower_const.mpr (Extent.fits_minValue ty)
          · exact low
        · split
          · split
            · exact ⟨trivial, by simp⟩
            · exact Bound.isUpper_const.mpr (Extent.fits_maxValue ty)
          · exact high
      · rw [Holds, withEquiv_extent]
        obtain ⟨above, below⟩ := ScalarType.fits_iff.mp hv
        refine ⟨?_, ?_⟩
        · split
          · split <;> exact above
          · exact holds.1
        · split
          · split <;> exact below
          · exact holds.2

end ValueRange

namespace Engine

variable {en : Engine} {s : EngineState} {block : BlockId}

/-- A widened range is the new one, or the complement of one of its ends, or it has ends that are
    pushed outwards and then brought back as far as the evolution tells. -/
theorem widen?_forms {dest : NameId} {ty : ScalarType} {old new wider : ValueRange}
    (hw : en.widen? s block dest ty old new = some wider) :
    wider = new ∨
    (new.isAnti = true ∧ ∃ minMoved maxMoved,
      new.widenAnti? ty minMoved maxMoved = some wider) ∨
    (new.isRange = true ∧ ∃ mayOverflow minMoved maxMoved,
      wider = en.narrow s block dest ty (new.pushEnds ty mayOverflow minMoved maxMoved)) := by
  unfold widen? at hw
  dsimp only at hw
  split at hw
  · cases hw
  · split at hw
    · exact .inl (Option.some.inj hw).symm
    · split at hw
      · next both =>
          simp only [Bool.and_eq_true] at both
          exact .inr (.inl ⟨both.1.2, _, _, hw⟩)
      · split at hw
        · cases hw
        · next ranges =>
            simp only [Bool.or_eq_true, Bool.not_eq_true', not_or, Bool.not_eq_false] at ranges
            split at hw
            · cases hw
            · exact .inr (.inr ⟨ranges.1.2, _, _, _, (Option.some.inj hw).symm⟩)

theorem narrow_of_noEvolution (noEvolution : en.config.useEvolution = false) (dest : NameId)
    (ty : ScalarType) (vr : ValueRange) : en.narrow s block dest ty vr = vr := by
  simp [narrow, noEvolution]

/-- Without evolutions a widened range holds what the new range holds. -/
theorem widen?_widens (noEvolution : en.config.useEvolution = false) {dest : NameId}
    {ty : ScalarType} {old new wider : ValueRange} (h : new.Proper ty)
    (hw : en.widen? s block dest ty old new = some wider) : new.Widens ty wider := by
  rcases widen?_forms hw with rfl | ⟨anti, _, _, kept⟩ | ⟨range_, _, _, _, rfl⟩
  · exact ValueRange.widens_refl h
  · exact ValueRange.widenAnti?_widens h anti kept
  · rw [narrow_of_noEvolution noEvolution]
    exact ValueRange.pushEnds_widens h range_ _ _ _

/-- What an operand of a merge contributes is proper. -/
theorem phiContribution_proper (hq : s.table.query.Proper) {ty : ScalarType}
    (tracked : ty.isTracked = true) {o : Operand} (h : s.table.query.Typed ty o) (edge : EdgeId) :
    (en.phiContribution s edge o).Proper ty := by
  have known : (s.table.query.operandRange o).Proper ty := Query.operandRange_proper hq tracked h
  cases o with
  | const c => exact known
  | name n =>
      simp only [phiContribution]
      split
      · split
        · exact .varying
        · rw [ValueRange.Proper, ValueRange.withEquiv_extent]
          exact known
      · split
        · exact .inside ⟨trivial, by simp [Bound.ofName]⟩ ⟨trivial, by simp [Bound.ofName]⟩
        · exact known

theorem mem_phiContributions {phi : Phi} {vr : ValueRange} :
    vr ∈ en.phiContributions s block phi ↔ ∃ o ∈ phi.operands, ∃ edge,
      en.f.findEdge? o.predecessor block = some edge ∧ s.edgeExecutable edge = true ∧
      vr = en.phiContribution s edge o.value := by
  unfold phiContributions
  rw [List.mem_filterMap]
  refine exists_congr fun o => and_congr_right fun _ => ?_
  cases found : en.f.findEdge? o.predecessor block with
  | none => simp
  | some edge =>
      constructor
      · intro h
        dsimp only at h
        split at h
        · next executable => exact ⟨edge, rfl, executable, (Option.some.inj h).symm⟩
        · cases h
      · rintro ⟨edge', same, executable, rfl⟩
        cases same
        simp only [executable, if_true]

/-- The merged range is proper, and holds what each operand contributes. -/
theorem mergedRange_covers (en : Engine) (block : BlockId) (hq : s.table.query.Proper) {phi : Phi}
    (tracked : (s.table.typeOf phi.dest).isTracked = true)
    (typed : ∀ o ∈ phi.operands, s.table.query.Typed (s.table.typeOf phi.dest) o.value) :
    (en.mergedRange s block phi).Proper (s.table.typeOf phi.dest) ∧
      ∀ vr ∈ en.phiContributions s block phi, ∀ env v,
        vr.Holds env (s.table.typeOf phi.dest) v →
        (en.mergedRange s block phi).Holds env (s.table.typeOf phi.dest) v := by
  have proper : ∀ vr ∈ en.phiContributions s block phi,
      vr.Proper (s.table.typeOf phi.dest) := by
    intro vr hvr
    obtain ⟨o, ho, edge, -, -, rfl⟩ := mem_phiContributions.mp hvr
    exact phiContribution_proper hq tracked (typed o ho) edge
  have nothing : ValueRange.undefined.Proper (s.table.typeOf phi.dest) := .undefined
  obtain ⟨merged, covers⟩ := ValueRange.foldl_meet_covers nothing proper
  exact ⟨merged, fun vr hvr env v holds => covers env v (.inr ⟨vr, hvr, holds⟩)⟩

end Engine

end RangeFlow
