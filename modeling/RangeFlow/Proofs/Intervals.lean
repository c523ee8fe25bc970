import RangeFlow.Proofs.Conversion
import RangeFlow.Proofs.Proper

/-! # Intervals of results

A result is brought into its type in two ways: a number outside the type is either taken modulo the
size of the type or replaced by an end of it. Neither loses a value, and neither does the normal
form that the ends are written in afterwards.
-/

namespace RangeFlow

/-- Numbers between two ends that are less than the size apart stay between them when all are
    wrapped. -/
theorem between_wrap {ty : ScalarType} {lo hi v : Int} (above : lo ≤ v) (below : v ≤ hi)
    (short : hi - lo < ty.size) : Between (ty.wrap lo) (ty.wrap hi) (ty.wrap v) := by
  have residue : ∀ x, (ty.wrap x - ty.wrap lo) % ty.size = (x - lo) % ty.size := by
    intro x
    rw [Int.sub_emod, ty.wrap_emod, ty.wrap_emod, ← Int.sub_emod]
  have position : (v - lo) % ty.size = v - lo := Int.emod_eq_of_lt (by omega) (by omega)
  have length : (hi - lo) % ty.size = hi - lo := Int.emod_eq_of_lt (by omega) short
  rw [between_iff_emod (ty.wrap_fits lo) (ty.wrap_fits hi) (ty.wrap_fits v), residue, residue,
    position, length]
  omega

namespace ScalarType

variable {ty : ScalarType} {x y : Int}

theorem wrap_eq_of_emod_eq (h : x % ty.size = y % ty.size) : ty.wrap x = ty.wrap y := by
  refine eq_of_emod_eq (ty.wrap_fits x) (ty.wrap_fits y) ?_
  rw [ty.wrap_emod, ty.wrap_emod, h]

theorem wrap_of_below (above : ty.minValue - ty.size ≤ x) (below : x < ty.minValue) :
    ty.wrap x = x + ty.size := by
  have size := ty.size_eq
  refine eq_of_emod_eq (ty.wrap_fits x) (fits_iff.mpr ⟨by omega, by omega⟩) ?_
  rw [ty.wrap_emod, Int.add_emod_right]

theorem wrap_of_above (above : ty.maxValue < x) (below : x ≤ ty.maxValue + ty.size) :
    ty.wrap x = x - ty.size := by
  have size := ty.size_eq
  refine eq_of_emod_eq (ty.wrap_fits x) (fits_iff.mpr ⟨by omega, by omega⟩) ?_
  rw [ty.wrap_emod, Int.sub_emod_right]

theorem overflowUndefined_of_not_wraps (integral : ty.isIntegral = true) (h : ty.wraps = false) :
    ty.overflowUndefined = true := by
  cases ty with
  | int bits sign => cases sign <;> simp_all [wraps, overflowUndefined, isIntegral, kind, signed]
  | bool => cases h
  | ptr => cases h
  | float wrapping => simp [isIntegral, kind] at integral

theorem signed_of_overflowUndefined (h : ty.overflowUndefined = true) : ty.signed = true := by
  simp only [overflowUndefined, Bool.and_eq_true] at h
  exact h.1.2

end ScalarType

namespace Bound

variable {env : NameId → Int} {ty : ScalarType} {a b : Bound} {p : Prop} [Decidable p] {v : Int}

theorem ite_reading_le (ha : a.reading env ty ≤ v) (hb : b.reading env ty ≤ v) :
    (if p then a else b).reading env ty ≤ v := by
  split
  · exact ha
  · exact hb

theorem le_ite_reading (ha : v ≤ a.reading env ty) (hb : v ≤ b.reading env ty) :
    v ≤ (if p then a else b).reading env ty := by
  split
  · exact ha
  · exact hb

end Bound

namespace Extent

variable {env : NameId → Int} {ty : ScalarType} {v : Int}

theorem holds_canonical_inside {lo hi : Bound} (h : (inside lo hi).Holds env ty v) :
    ((inside lo hi).canonical ty).Holds env ty v := by
  by_cases named : (inside lo hi).isSymbolic = true
  · simpa [canonical, named] using h
  · rw [canonical_of_le env rfl (Bool.eq_false_iff.mpr named) (Int.le_trans h.1 h.2)]
    exact holds_dropFull h

/-- An interval that passes through the ends of the type is written as a complement. -/
theorem holds_canonical_between {c d : Int} (hc : ty.fits c = true) (hd : ty.fits d = true)
    (hv : ty.fits v = true) (h : Between c d v) :
    ((inside (.const c) (.const d)).canonical ty).Holds env ty v := by
  unfold Between at h
  split at h
  · exact holds_canonical_inside h
  · next crossed =>
      rw [canonical_inside_of_lt (Int.not_le.mp crossed)]
      split
      · trivial
      · rw [ScalarType.fits_iff] at hc hd
        refine holds_dropFull ((preferRange_outside ?_ ?_ (by omega)).2 env v hv ?_)
        · exact ScalarType.fits_iff.mpr ⟨by omega, by omega⟩
        · exact ScalarType.fits_iff.mpr ⟨by omega, by omega⟩
        · simp only [Holds, Bound.reading_const]
          omega

end Extent

namespace ValueRange

variable {env : NameId → Int} {ty : ScalarType} {a b vr : ValueRange} {v x y : Int}

theorem holds_canonical {lo hi : Bound} (h : (Extent.inside lo hi).Holds env ty v) :
    (canonical ty (.inside lo hi)).Holds env ty v :=
  Extent.holds_canonical_inside h

theorem holds_finish_inside {lo hi : Bound} (h : (Extent.inside lo hi).Holds env ty v) :
    (finish ty (.inside lo hi)).Holds env ty v := by
  unfold finish
  split
  · trivial
  · split
    · exact Extent.holds_canonical_inside h
    · trivial

theorem holds_finish_outside {c d : Int} (hc : ty.fits c = true) (hd : ty.fits d = true)
    (hv : ty.fits v = true) (h : (Extent.outside (.const c) (.const d)).Holds env ty v) :
    (finish ty (.outside (.const c) (.const d))).Holds env ty v := by
  unfold finish
  split
  · trivial
  · split
    · next order =>
        have ordered : c ≤ d := by
          simp only [Extent.min, Extent.max, Bound.compare_const, ValueOrder.ofInts] at order
          split at order
          · omega
          · split at order
            · omega
            · cases order
        exact (Extent.canonical_outside hc hd).2 ordered env v hv h
    · trivial

theorem exists_inside (h : vr.isRange = true) : ∃ lo hi, vr.extent = .inside lo hi := by
  obtain ⟨extent, equiv⟩ := vr
  cases extent with
  | inside lo hi => exact ⟨lo, hi, rfl⟩
  | undefined | outside | varying => cases h

/-- A value of an interval lies between the numbers its ends stand for. -/
theorem Holds.within (holds : vr.Holds env ty v) (interval : vr.isRange = true) :
    vr.min.reading env ty ≤ v ∧ v ≤ vr.max.reading env ty := by
  obtain ⟨lo, hi, extent⟩ := exists_inside interval
  rw [Holds, extent] at holds
  rw [ValueRange.min, ValueRange.max, extent]
  exact holds

theorem Holds.eq_zero_of_isNull (holds : vr.Holds env ty v) (h : vr.isNull = true) : v = 0 := by
  simp only [isNull, Bool.and_eq_true, Bound.isZero, beq_iff_eq] at h
  have within := holds.within h.1.1
  rw [h.1.2, h.2] at within
  exact Int.le_antisymm within.2 within.1

theorem Proper.ends (h : vr.Proper ty) (interval : vr.isRange = true) :
    vr.min.IsLower ty ∧ vr.max.IsUpper ty := by
  obtain ⟨extent, equiv⟩ := vr
  cases (h : extent.Proper ty) with
  | inside low high => exact ⟨low, high⟩
  | undefined | varying | outside | apartFrom => cases interval

theorem reading_of_concrete? {bound : Bound} {c : Int} (h : bound.concrete? ty = some c) :
    bound.reading env ty = c := by
  cases bound with
  | symbolic n offset => cases h
  | negInf | const | posInf => exact Option.some.inj h

theorem Holds.within_constBounds? {lo hi : Int} (holds : vr.Holds env ty v)
    (interval : vr.isRange = true) (ends : vr.constBounds? ty = some (lo, hi)) :
    lo ≤ v ∧ v ≤ hi := by
  have within := holds.within interval
  obtain ⟨low, high⟩ := concrete?_of_constBounds? ends
  rwa [reading_of_concrete? low, reading_of_concrete? high] at within

/-- Wrapping a number at most one size away from the type, by the side it lies on. -/
theorem wrap_of_side (ty : ScalarType) (x : Int) (low : ty.minValue - ty.size ≤ x)
    (high : x ≤ ty.maxValue + ty.size) :
    (sideOf ty x = .below ∧ x < ty.minValue ∧ ty.wrap x = x + ty.size) ∨
    (sideOf ty x = .inside ∧ ty.fits x = true ∧ ty.wrap x = x) ∨
    (sideOf ty x = .above ∧ ty.maxValue < x ∧ ty.wrap x = x - ty.size) := by
  unfold sideOf
  split
  · next below => exact .inl ⟨rfl, below, ScalarType.wrap_of_below low below⟩
  · split
    · next above => exact .inr (.inr ⟨rfl, above, ScalarType.wrap_of_above above high⟩)
    · have fits : ty.fits x = true := ScalarType.fits_iff.mpr ⟨by omega, by omega⟩
      exact .inr (.inl ⟨rfl, fits, ScalarType.wrap_of_fits fits⟩)

/-- The numbers between two ends at most one size away from the type, taken modulo that size. -/
theorem holds_wrapEnds? {lo hi : Int} {e : Extent} (low : ty.minValue - ty.size ≤ lo)
    (high : hi ≤ ty.maxValue + ty.size) (above : lo ≤ v) (below : v ≤ hi)
    (h : wrapEnds? ty lo hi = some e) : (finish ty e).Holds env ty (ty.wrap v) := by
  have size := ty.size_eq
  have fits := ty.wrap_fits v
  have first := ScalarType.fits_iff.mp (ty.wrap_fits hi)
  have last := ScalarType.fits_iff.mp (ty.wrap_fits lo)
  have start := wrap_of_side ty lo low (by omega)
  have stop := wrap_of_side ty hi (by omega) high
  have value := wrap_of_side ty v (by omega) (by omega)
  rw [ScalarType.fits_iff] at start stop value
  unfold wrapEnds? at h
  dsimp only at h
  split at h
  · next sameSide =>
      cases h
      refine holds_finish_inside ?_
      simp only [Extent.Holds, Bound.reading_const]
      rw [sameSide] at start
      rcases stop with ⟨side, _, _⟩ | ⟨side, _, _⟩ | ⟨side, _, _⟩ <;> simp [side] at start <;> omega
  · next apart =>
      split at h
      · cases h
      · next oneEnd =>
          split at h
          · cases h
          · split at h
            · cases h
            · cases h
              refine holds_finish_outside ?_ ?_ fits ?_
              · exact ScalarType.fits_iff.mpr ⟨by omega, by omega⟩
              · exact ScalarType.fits_iff.mpr ⟨by omega, by omega⟩
              · -- one end is inside the type, and all that left the type lies beyond the other
                simp only [Extent.Holds, Bound.reading_const]
                rcases start with ⟨side, _, _⟩ | ⟨side, _, _⟩ | ⟨side, _, _⟩ <;>
                  rcases stop with ⟨side', _, _⟩ | ⟨side', _, _⟩ | ⟨side', _, _⟩ <;>
                    simp [side, side'] at apart oneEnd <;> omega

theorem saturate_le (hv : ty.fits v = true) {lo : Int} (h : lo ≤ v) :
    (saturate ty lo).reading env ty ≤ v := by
  rw [ScalarType.fits_iff] at hv
  unfold saturate sideOf
  split
  · unfold Bound.negativeExtreme
    split <;> exact hv.1
  · next above =>
      split at above
      · cases above
      · split at above
        · omega
        · cases above
  · exact h

theorem le_saturate (hv : ty.fits v = true) {hi : Int} (h : v ≤ hi) :
    v ≤ (saturate ty hi).reading env ty := by
  rw [ScalarType.fits_iff] at hv
  unfold saturate sideOf
  split
  · next below =>
      split at below
      · omega
      · split at below <;> cases below
  · unfold Bound.positiveExtreme
    split <;> exact hv.2
  · exact h

/-- The sum or difference of a value of each range. The first may lie one below the type, as the
    number does that a complement of bits is taken from. -/
theorem sum_holds (add : Bool) (integral : ty.isIntegral = true)
    (ha : ∀ lo hi, a.constBounds? ty = some (lo, hi) → ty.minValue - 1 ≤ lo ∧ hi ≤ ty.maxValue)
    (hb : b.Proper ty) (holdsA : a.Holds env ty x) (holdsB : b.Holds env ty y)
    (exact_ : v = if add then x + y else x - y)
    (defined : ty.overflowUndefined = true → ty.fits v = true) :
    (sum add ty a b).Holds env ty (ty.wrap v) := by
  unfold sum
  split
  · next ends0 ends1 extentA extentB hends0 hends1 =>
      obtain ⟨lo0, hi0⟩ := ends0
      obtain ⟨lo1, hi1⟩ := ends1
      have within := holdsA.within_constBounds? (by simp [isRange, extentA, Extent.isRange]) hends0
      have within' := holdsB.within_constBounds? (by simp [isRange, extentB, Extent.isRange]) hends1
      have bounds := ha lo0 hi0 hends0
      obtain ⟨low, high⟩ := hb.constBounds?_fits hends1
      rw [ScalarType.fits_iff] at low high
      have size := ty.size_eq
      have least := ty.minValue_nonpos
      have greatest := ty.maxValue_nonneg
      obtain ⟨lo, hi, ends⟩ : ∃ lo hi, sumEnds add (lo0, hi0) (lo1, hi1) = (lo, hi) := ⟨_, _, rfl⟩
      have span : lo ≤ v ∧ v ≤ hi ∧ ty.minValue - ty.size ≤ lo ∧ hi ≤ ty.maxValue + ty.size := by
        cases add <;> cases ends <;> simp only [if_true, Bool.false_eq_true, if_false] at exact_ <;>
          omega
      obtain ⟨above, below, near, near'⟩ := span
      rw [ends]
      dsimp only
      split
      · split
        · next e he => exact holds_wrapEnds? near near' above below he
        · trivial
      · next strict =>
          have undefined :=
            ScalarType.overflowUndefined_of_not_wraps integral (Bool.eq_false_iff.mpr strict)
          have fits := defined undefined
          rw [ScalarType.wrap_of_fits fits]
          have limits := ScalarType.fits_iff.mp fits
          exact holds_finish_inside
            ⟨Bound.ite_reading_le limits.1 (saturate_le fits above),
              Bound.le_ite_reading limits.2 (le_saturate fits below)⟩
  · trivial

end ValueRange

end RangeFlow
