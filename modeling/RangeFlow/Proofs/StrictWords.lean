import RangeFlow.Proofs.ConstantResults
import RangeFlow.Strict

/-! # Strict words compute the exact numbers

On numbers that are no further from zero than the size of a type, no operation of strict words has
a fault, and each gives the number that the exact operation gives. The same holds of wrapping,
whatever the number is, and of the operators on two values.
-/

namespace RangeFlow

/-- The number is no further from zero than the greatest size of a type. -/
def Near (x : Int) : Prop := x.natAbs ≤ 2 ^ 64

theorem near_zero : Near 0 := Nat.zero_le _

theorem near_one : Near 1 := by
  unfold Near
  decide

theorem near_iff {x : Int} : Near x ↔ -(2 ^ 64) ≤ x ∧ x ≤ 2 ^ 64 := by
  unfold Near
  omega

theorem near_twoPow {n : Nat} (small : n ≤ 64) : Near (twoPow n) :=
  Nat.pow_le_pow_right (by decide) small

namespace ScalarType

variable {ty : ScalarType} {x : Int}

theorem near_of_fits (h : ty.fits x = true) : Near x := by
  have bounds := abs_lt_size h
  have size := ValueRange.size_le ty
  exact near_iff.mpr ⟨by omega, by omega⟩

theorem near_size (ty : ScalarType) : Near ty.size := near_twoPow ty.precision_le

theorem near_minValue (ty : ScalarType) : Near ty.minValue := near_of_fits (Extent.fits_minValue ty)

theorem near_maxValue (ty : ScalarType) : Near ty.maxValue := near_of_fits (Extent.fits_maxValue ty)

end ScalarType

/-- Rounding down corrects the quotient where the remainder and the divisor have opposite signs. -/
theorem fdiv_eq_corrected {a b : Int} (nonzero : b ≠ 0) :
    a.fdiv b = if a.tmod b ≠ 0 ∧ decide (a.tmod b < 0) ≠ decide (b < 0) then a.tdiv b - 1
      else a.tdiv b := by
  have exact_ := Int.dvd_iff_tmod_eq_zero (a := b) (b := a)
  have up := Int.tmod_nonneg (a := a) b
  have down := Int.tmod_nonneg (a := -a) b
  rw [Int.neg_tmod] at down
  rw [Int.fdiv_eq_tdiv]
  rcases Int.lt_or_gt_of_ne nonzero with negative | positive
  · have sign := Int.sign_eq_neg_one_of_neg negative
    grind
  · have sign := Int.sign_eq_one_of_pos positive
    grind

/-- Rounding up corrects the quotient where the remainder and the divisor have one sign. -/
theorem neg_fdiv_neg_eq_corrected {a b : Int} (nonzero : b ≠ 0) :
    -(-a).fdiv b = if a.tmod b ≠ 0 ∧ decide (a.tmod b < 0) = decide (b < 0) then a.tdiv b + 1
      else a.tdiv b := by
  rw [fdiv_eq_corrected nonzero, Int.neg_tmod, Int.neg_tdiv]
  grind

theorem sign_eq_sign_iff {a b : Int} (ha : a ≠ 0) (hb : b ≠ 0) :
    a.sign = b.sign ↔ decide (a < 0) = decide (b < 0) := by
  rcases Int.lt_or_gt_of_ne ha with negA | posA <;> rcases Int.lt_or_gt_of_ne hb with negB | posB
  · simp [Int.sign_eq_neg_one_of_neg, negA, negB]
  · simp [Int.sign_eq_neg_one_of_neg negA, Int.sign_eq_one_of_pos posB, negA, posB.le]
  · simp [Int.sign_eq_one_of_pos posA, Int.sign_eq_neg_one_of_neg negB, negB, posA.le]
  · simp [Int.sign_eq_one_of_pos, posA, posB, Int.not_lt.mpr posA.le, Int.not_lt.mpr posB.le]

namespace Strict

variable {ty : ScalarType} {a b x : Int}

theorem signed_eq (low : -(2 ^ 127) ≤ x) (high : x < 2 ^ 127) : signed x = pure x := by
  have least : Wide.least = -(2 ^ 127 : Int) := rfl
  have greatest : Wide.greatest = (2 ^ 127 : Int) - 1 := rfl
  have fits : Wide.fits x = true := by
    simp only [Wide.fits, least, greatest, Bool.and_eq_true, decide_eq_true_eq]
    omega
  simp only [signed, fits, if_true]
  rfl

theorem add_eq (ha : Near a) (hb : Near b) : add a b = pure (a + b) := by
  rw [near_iff] at ha hb
  exact signed_eq (by omega) (by omega)

theorem sub_eq (ha : Near a) (hb : Near b) : sub a b = pure (a - b) := by
  rw [near_iff] at ha hb
  exact signed_eq (by omega) (by omega)

theorem neg_eq (ha : Near a) : neg a = pure (-a) := by
  rw [near_iff] at ha
  exact signed_eq (by omega) (by omega)

theorem abs_eq (ha : Near a) : abs a = pure (a.natAbs : Int) := by
  rw [near_iff] at ha
  exact signed_eq (by omega) (by omega)

theorem amount_eq {n : Nat} (small : n < 128) : amount n = pure n := by
  rw [amount, if_pos ⟨Int.natCast_nonneg n, Int.ofNat_lt.mpr small⟩]
  rfl

/-- A power of two up to the greatest size of a type is a shifted one. -/
theorem shl_one {n : Nat} (small : n ≤ 64) : shl 1 n = pure (twoPow n : Int) := by
  have near := near_iff.mp (near_twoPow small)
  rw [shl, amount_eq (by omega), pure_bind, one_mul]
  exact signed_eq (by omega) (by omega)

theorem shr_eq {n : Nat} (small : n < 128) : shr a n = pure (a >>> n) := by
  rw [shr, amount_eq small, pure_bind]

theorem size_eq (ty : ScalarType) : size ty = pure ty.size := shl_one ty.precision_le

/-- The size of a signed type's negative half is a shifted one. -/
theorem shl_one_pred (ty : ScalarType) :
    shl 1 (ty.precision - 1) = pure (twoPow (ty.precision - 1) : Int) := by
  have cast : (ty.precision : Int) - 1 = ((ty.precision - 1 : Nat) : Int) := by
    have := ty.precision_pos
    omega
  rw [cast]
  exact shl_one (Nat.le_trans (Nat.sub_le ..) ty.precision_le)

theorem minValue_eq (ty : ScalarType) : minValue ty = pure ty.minValue := by
  unfold minValue ScalarType.minValue
  cases ty.signed with
  | false => rfl
  | true =>
      simp only [if_true, shl_one_pred, pure_bind]
      exact neg_eq (near_twoPow (Nat.le_trans (Nat.sub_le ..) ty.precision_le))

theorem maxValue_eq (ty : ScalarType) : maxValue ty = pure ty.maxValue := by
  unfold maxValue ScalarType.maxValue
  cases ty.signed with
  | false =>
      simp only [Bool.false_eq_true, if_false, shl_one ty.precision_le, pure_bind]
      exact sub_eq ty.near_size near_one
  | true =>
      simp only [if_true, shl_one_pred, pure_bind]
      exact sub_eq (near_twoPow (Nat.le_trans (Nat.sub_le ..) ty.precision_le)) near_one

/-- Any number can be wrapped. -/
theorem wrap_eq (ty : ScalarType) (value : Int) : wrap ty value = pure (ty.wrap value) := by
  have positive := ty.size_pos
  have size := ValueRange.size_le ty
  have low := Int.emod_nonneg value (Int.ne_of_gt positive)
  have high := Int.emod_lt_of_pos value positive
  have residue : rem value ty.size = pure (value % ty.size) := by
    rw [rem, if_neg (by omega)]
    rfl
  have corrected : sub (value % ty.size) ty.size = pure (value % ty.size - ty.size) :=
    sub_eq (near_iff.mpr ⟨by omega, by omega⟩) ty.near_size
  simp only [wrap, size_eq, residue, maxValue_eq, corrected, pure_bind, ScalarType.wrap]
  exact (apply_ite pure ..).symm

theorem unsigned_eq {n : Nat} (small : n < 2 ^ 128) : unsigned n = pure n := by
  have bound : twoPow 128 = 2 ^ 128 := rfl
  rw [unsigned, if_pos (by omega)]
  rfl

theorem shlUnsigned_one {n : Nat} (small : n ≤ 64) : shlUnsigned 1 n = pure (twoPow n) := by
  have bound : twoPow n ≤ 2 ^ 64 := Nat.pow_le_pow_right (by decide) small
  rw [shlUnsigned, amount_eq (by omega), pure_bind, Nat.cast_one, one_mul]
  exact unsigned_eq (by omega)

/-- No mask is wider than a type. -/
theorem lowestBits_eq {n : Nat} (small : n ≤ 64) : lowestBits n = pure (twoPow n - 1) := by
  have bound : twoPow n ≤ 2 ^ 64 := Nat.pow_le_pow_right (by decide) small
  have positive := twoPow_pos n
  have cast : (twoPow n : Int) - (1 : Nat) = ((twoPow n - 1 : Nat) : Int) := by omega
  rw [lowestBits, shlUnsigned_one small, pure_bind, subUnsigned, cast]
  exact unsigned_eq (by omega)

theorem mask_eq (ty : ScalarType) : mask ty = pure ty.mask := lowestBits_eq ty.precision_le

/-- A quotient is no further from zero than the dividend. -/
theorem div?_near {q : Int} (ha : Near a) (h : Wide.div? a b = some q) :
    b ≠ 0 ∧ q = a.tdiv b ∧ Near q := by
  obtain ⟨nonzero, rfl⟩ := BinaryOp.div?_eq_some h
  exact ⟨nonzero, rfl, Nat.le_trans (Int.natAbs_tdiv_le_natAbs a b) ha⟩

theorem applyExact_roundDiv (ty : ScalarType) (ha : Near a) :
    applyExact .roundDiv a b ty = pure (BinaryOp.roundDiv.applyExact a b ty) := by
  simp only [applyExact, BinaryOp.applyExact, BinaryOp.roundedQuotient?, Wide.rem?]
  cases division : Wide.div? a b with
  | none => rfl
  | some q =>
      obtain ⟨nonzero, rfl, near⟩ := div?_near ha division
      cases magnitude : Wide.abs? (a.tmod b) with
      | none => simp [magnitude]
      | some r =>
          cases double : Wide.mul? r 2 with
          | none => simp [magnitude, double]
          | some twice =>
              cases divisor : Wide.abs? b with
              | none => simp [magnitude, double]
              | some m =>
                  simp only [Option.map_some, Option.bind_some, Option.bind_eq_bind, magnitude,
                    double, add_eq near near_one, sub_eq near near_one, pure_bind]
                  split
                  · rfl
                  · next far =>
                      -- the dividend zero leaves no remainder, and its quotient is not corrected
                      have dividend : a ≠ 0 := by
                        rintro rfl
                        have remainder := Wide.eq_of_check magnitude
                        have twice := Wide.eq_of_check double
                        have modulus := Wide.eq_of_check divisor
                        rw [Int.zero_tmod, Int.natAbs_zero] at remainder
                        omega
                      simp only [sign_eq_sign_iff dividend nonzero]
                      split <;> rfl

/-- The operator on two values has no fault: only quotients are corrected, and they are no further
    from zero than the dividend. -/
theorem applyExact_eq (op : BinaryOp) (ty : ScalarType) (ha : Near a) :
    applyExact op a b ty = pure (op.applyExact a b ty) := by
  cases op with
  | floorDiv =>
      simp only [applyExact, BinaryOp.applyExact, Wide.rem?]
      cases h : Wide.div? a b with
      | none => rfl
      | some q =>
          obtain ⟨nonzero, rfl, near⟩ := div?_near ha h
          simp only [Option.map_some, fdiv_eq_corrected nonzero, sub_eq near near_one, pure_bind]
          split <;> rfl
  | ceilDiv =>
      simp only [applyExact, BinaryOp.applyExact, Wide.rem?]
      cases h : Wide.div? a b with
      | none => rfl
      | some q =>
          obtain ⟨nonzero, rfl, near⟩ := div?_near ha h
          simp only [Option.map_some, neg_fdiv_neg_eq_corrected nonzero, add_eq near near_one,
            pure_bind]
          split <;> rfl
  | roundDiv => exact applyExact_roundDiv ty ha
  | shl =>
      simp only [applyExact, BinaryOp.applyExact]
      cases h : BinaryOp.shiftAmount b ty with
      | none => rfl
      | some n =>
          obtain ⟨⟨low, high⟩, same⟩ := BinaryOp.shiftAmount_eq_some h
          have small := ty.precision_le
          simp only [shl_one (show n ≤ 64 by omega), pure_bind, Option.bind_some]
  | shr =>
      simp only [applyExact, BinaryOp.applyExact]
      cases h : BinaryOp.shiftAmount b ty with
      | none => rfl
      | some n =>
          obtain ⟨⟨low, high⟩, same⟩ := BinaryOp.shiftAmount_eq_some h
          have small := ty.precision_le
          simp only [shr_eq (show n < 128 by omega), pure_bind, Option.map_some]
  | _ => rfl

end Strict

end RangeFlow
