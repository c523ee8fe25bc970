import RangeFlow.Analysis.Config
import RangeFlow.Operator

/-! # Values of a type

The values of a scalar type are an interval around zero as long as the type's size, so every number
differs from exactly one of them by a multiple of that size: the number `wrap` gives.
-/

namespace RangeFlow

theorem one_bit : 0 < 1 ∧ 1 ≤ 64 := by decide

theorem eight_bits : 0 < 8 ∧ 8 ≤ 64 := by decide

end RangeFlow

namespace RangeFlow.ScalarType

theorem size_pos (ty : ScalarType) : 0 < ty.size := by
  have := twoPow_pos ty.precision
  unfold size
  omega

theorem minValue_nonpos (ty : ScalarType) : ty.minValue ≤ 0 := by
  unfold minValue
  split <;> omega

theorem maxValue_nonneg (ty : ScalarType) : 0 ≤ ty.maxValue := by
  have half := twoPow_pos (ty.precision - 1)
  have whole := twoPow_pos ty.precision
  unfold maxValue
  split <;> omega

/-- The size of a type is the number of its values. -/
theorem size_eq (ty : ScalarType) : ty.size = ty.maxValue - ty.minValue + 1 := by
  have positive := ty.precision_pos
  have double : twoPow ty.precision = twoPow (ty.precision - 1) * 2 := by
    rw [← twoPow_succ, Nat.sub_add_cancel positive]
  unfold size maxValue minValue
  split <;> omega

theorem minValue_lt_maxValue (ty : ScalarType) : ty.minValue < ty.maxValue := by
  have size := ty.size_eq
  have double : twoPow ty.precision = twoPow (ty.precision - 1) * 2 := by
    rw [← twoPow_succ, Nat.sub_add_cancel ty.precision_pos]
  have half := twoPow_pos (ty.precision - 1)
  unfold ScalarType.size at size
  omega

theorem one_le_maxValue {ty : ScalarType} (h : ty.precision ≠ 1) : 1 ≤ ty.maxValue := by
  have positive := ty.precision_pos
  have half : 2 ≤ twoPow (ty.precision - 1) := by
    have quarter := twoPow_pos (ty.precision - 2)
    have double := twoPow_succ (ty.precision - 2)
    rw [show ty.precision - 2 + 1 = ty.precision - 1 by omega] at double
    omega
  have whole : twoPow ty.precision = twoPow (ty.precision - 1) * 2 := by
    rw [← twoPow_succ, Nat.sub_add_cancel positive]
  unfold maxValue
  split <;> omega

theorem isTracked_of_isIntegral {ty : ScalarType} (h : ty.isIntegral = true) :
    ty.isTracked = true := by
  cases ty <;> simp_all [isIntegral, isTracked, kind]

theorem isTracked_of_isPointer {ty : ScalarType} (h : ty.isPointer = true) :
    ty.isTracked = true := by
  cases ty <;> simp_all [isPointer, isTracked, kind]

theorem fits_iff {ty : ScalarType} {x : Int} :
    ty.fits x = true ↔ ty.minValue ≤ x ∧ x ≤ ty.maxValue := by
  simp [fits]

theorem fits_zero (ty : ScalarType) : ty.fits 0 = true :=
  fits_iff.mpr ⟨ty.minValue_nonpos, ty.maxValue_nonneg⟩

theorem minValue_of_not_signed {ty : ScalarType} (h : ty.signed = false) : ty.minValue = 0 := by
  simp [minValue, h]

theorem minValue_of_signed {ty : ScalarType} (h : ty.signed = true) :
    ty.minValue = -ty.maxValue - 1 := by
  simp only [minValue, maxValue, h, if_true]
  omega

/-- Wrapping changes a number by a multiple of the size. -/
theorem wrap_emod (ty : ScalarType) (x : Int) : ty.wrap x % ty.size = x % ty.size := by
  simp only [wrap]
  split
  · rw [Int.sub_emod_right, Int.emod_emod]
  · rw [Int.emod_emod]

theorem wrap_fits (ty : ScalarType) (x : Int) : ty.fits (ty.wrap x) = true := by
  have nonneg := Int.emod_nonneg x (Int.ne_of_gt ty.size_pos)
  have below := Int.emod_lt_of_pos x ty.size_pos
  have size := ty.size_eq
  have least := ty.minValue_nonpos
  rw [fits_iff]
  unfold wrap
  cases signed : ty.signed with
  | false =>
      have zero := minValue_of_not_signed signed
      simp only [Bool.false_and, Bool.false_eq_true, if_false]
      omega
  | true =>
      have symmetric : ty.minValue = -(ty.maxValue + 1) := by
        simp only [minValue, maxValue, signed, if_true]
        omega
      simp only [Bool.true_and, decide_eq_true_eq]
      split <;> omega

/-- The only multiple of the size less than the size away from zero is zero. -/
theorem eq_zero_of_emod_eq_zero {ty : ScalarType} {x : Int} (above : -ty.size < x)
    (below : x < ty.size) (h : x % ty.size = 0) : x = 0 := by
  obtain ⟨k, hk⟩ := Int.dvd_of_emod_eq_zero h
  have positive := ty.size_pos
  have upper : k < 1 := by
    refine Int.lt_of_mul_lt_mul_left (a := ty.size) ?_ (Int.le_of_lt positive)
    omega
  have lower : -1 < k := by
    refine Int.lt_of_mul_lt_mul_left (a := ty.size) ?_ (Int.le_of_lt positive)
    omega
  have zero : k = 0 := by omega
  rw [hk, zero, Int.mul_zero]

/-- Two values of a type that differ by a multiple of its size are equal. -/
theorem eq_of_emod_eq {ty : ScalarType} {x y : Int} (hx : ty.fits x = true)
    (hy : ty.fits y = true) (h : x % ty.size = y % ty.size) : x = y := by
  rw [fits_iff] at hx hy
  have size := ty.size_eq
  have difference : x - y = 0 := by
    have multiple := Int.emod_eq_emod_iff_emod_sub_eq_zero.mp h
    exact eq_zero_of_emod_eq_zero (by omega) (by omega) multiple
  omega

theorem wrap_of_fits {ty : ScalarType} {x : Int} (h : ty.fits x = true) : ty.wrap x = x :=
  eq_of_emod_eq (ty.wrap_fits x) h (ty.wrap_emod x)

end RangeFlow.ScalarType

namespace RangeFlow

section EffectiveType

variable (config : Config) (ty : ScalarType)

@[simp] theorem effectiveType_kind : (config.effectiveType ty).kind = ty.kind := by
  unfold Config.effectiveType
  split
  · rfl
  · cases ty with
    | int bits sign => cases sign <;> rfl
    | bool | ptr | float => rfl

@[simp] theorem effectiveType_precision : (config.effectiveType ty).precision = ty.precision := by
  unfold Config.effectiveType
  split
  · rfl
  · cases ty with
    | int bits sign => cases sign <;> rfl
    | bool | ptr | float => rfl

@[simp] theorem effectiveType_signed : (config.effectiveType ty).signed = ty.signed := by
  unfold Config.effectiveType
  split
  · rfl
  · cases ty with
    | int bits sign => cases sign <;> rfl
    | bool | ptr | float => rfl

@[simp] theorem effectiveType_isTracked : (config.effectiveType ty).isTracked = ty.isTracked := by
  simp [ScalarType.isTracked]

@[simp] theorem effectiveType_minValue : (config.effectiveType ty).minValue = ty.minValue := by
  simp [ScalarType.minValue]

@[simp] theorem effectiveType_maxValue : (config.effectiveType ty).maxValue = ty.maxValue := by
  simp [ScalarType.maxValue]

@[simp] theorem effectiveType_size : (config.effectiveType ty).size = ty.size := by
  simp [ScalarType.size]

@[simp] theorem effectiveType_fits (x : Int) : (config.effectiveType ty).fits x = ty.fits x := by
  simp [ScalarType.fits]

@[simp] theorem effectiveType_wrap (x : Int) : (config.effectiveType ty).wrap x = ty.wrap x := by
  simp [ScalarType.wrap]

end EffectiveType

/-- A folded result is the exact result, wrapped to the target type. -/
theorem UnaryOp.fold_eq_some {op : UnaryOp} {x v : Int} {source target : ScalarType}
    (h : op.fold x source target = some v) :
    ∃ exact, op.applyExact x = some exact ∧ v = target.wrap exact := by
  unfold fold at h
  split at h
  · next conversion =>
      cases eq_of_beq conversion
      exact ⟨x, rfl, (Option.some.inj h).symm⟩
  · obtain ⟨exact, hexact, h⟩ := Option.bind_eq_some_iff.mp h
    refine ⟨exact, hexact, ?_⟩
    split at h
    · next fits =>
        cases h
        exact (ScalarType.wrap_of_fits fits).symm
    · split at h
      · exact (Option.some.inj h).symm
      · cases h

/-- A folded result is the exact result, wrapped to the type. -/
theorem BinaryOp.fold_eq_some {op : BinaryOp} {a b v : Int} {ty : ScalarType}
    (h : op.fold a b ty = some v) :
    ∃ exact, op.applyExact a b ty = some exact ∧ v = ty.wrap exact := by
  obtain ⟨exact, hexact, h⟩ := Option.bind_eq_some_iff.mp h
  refine ⟨exact, hexact, ?_⟩
  split at h
  · next fits =>
      cases h
      exact (ScalarType.wrap_of_fits fits).symm
  · split at h
    · exact (Option.some.inj h).symm
    · cases h

end RangeFlow
