import RangeFlow.Assertion.Fact
import RangeFlow.Proofs.Wrapping

/-! # Values under conversion

What the value of an expression tells about the values it was computed from: a conversion that
keeps the values of its source keeps comparisons with them, a sum that wraps turns an interval from
zero into one that may pass through the ends of the type, and bits of a conjunction or disjunction
are bits of its sides.
-/

namespace RangeFlow

namespace ScalarType

/-- The ends of a type as powers of two, for arithmetic. -/
theorem ends_of_signed {ty : ScalarType} (h : ty.signed = true) :
    ty.size = 2 * (twoPow (ty.precision - 1) : Int) ∧
      ty.minValue = -(twoPow (ty.precision - 1) : Int) ∧
      ty.maxValue = (twoPow (ty.precision - 1) : Int) - 1 := by
  have size := ty.size_eq
  have least : ty.minValue = -(twoPow (ty.precision - 1) : Int) := by simp [minValue, h]
  have greatest : ty.maxValue = (twoPow (ty.precision - 1) : Int) - 1 := by simp [maxValue, h]
  omega

theorem ends_of_unsigned {ty : ScalarType} (h : ty.signed = false) :
    ty.minValue = 0 ∧ ty.maxValue = ty.size - 1 := by
  have size := ty.size_eq
  have least := minValue_of_not_signed h
  omega

theorem size_le_of_precision_le {a b : ScalarType} (h : a.precision ≤ b.precision) :
    a.size ≤ b.size := by
  have grows : twoPow a.precision ≤ twoPow b.precision := Nat.pow_le_pow_right (by decide) h
  unfold size
  omega

theorem size_double_of_precision_lt {a b : ScalarType} (h : a.precision < b.precision) :
    2 * a.size ≤ b.size := by
  have grows : twoPow (a.precision + 1) ≤ twoPow b.precision := Nat.pow_le_pow_right (by decide) h
  rw [twoPow_succ] at grows
  unfold size
  omega

/-- A value lies within the size of its type around zero. -/
theorem abs_lt_size {ty : ScalarType} {x : Int} (h : ty.fits x = true) :
    -ty.size < x ∧ x < ty.size := by
  rw [fits_iff] at h
  have size := ty.size_eq
  have least := ty.minValue_nonpos
  have greatest := ty.maxValue_nonneg
  omega

/-- A number that is less than the size away from zero wraps to zero only if it is zero. -/
theorem wrap_eq_zero_iff {ty : ScalarType} {x : Int} (above : -ty.size < x) (below : x < ty.size) :
    ty.wrap x = 0 ↔ x = 0 := by
  constructor
  · intro h
    have residue : x % ty.size = 0 := by
      have same := ty.wrap_emod x
      rw [h, Int.zero_emod] at same
      exact same.symm
    exact eq_zero_of_emod_eq_zero above below residue
  · rintro rfl
    exact wrap_of_fits ty.fits_zero

end ScalarType

/-- A comparison with a constant carries over from a converted value to its source. -/
theorem eval_of_conversionKeeps {op : CmpOp} {source target : ScalarType} {x value : Int}
    (keeps : Function.conversionKeeps op source target = true) (hx : source.fits x = true)
    (hsource : source.fits value = true) (htarget : target.fits value = true)
    (h : op.eval (target.wrap x) value = true) : op.eval x value = true := by
  by_cases same : target.fits x = true
  · rw [ScalarType.wrap_of_fits same] at h
    exact h
  · -- the value changes only if it is negative and the wider target has no negative values
    simp only [Function.conversionKeeps, Bool.and_eq_true, Bool.or_eq_true, decide_eq_true_eq,
      beq_iff_eq] at keeps
    obtain ⟨order, kept⟩ := keeps
    rw [ScalarType.fits_iff] at hx hsource htarget same
    have sizes := source.size_eq
    have sizet := target.size_eq
    have shape : source.signed = true ∧ target.signed = false ∧ 2 * source.size ≤ target.size := by
      rcases kept with wider | ⟨precision, sign⟩
      · have double := ScalarType.size_double_of_precision_lt wider
        cases hs : source.signed <;> cases ht : target.signed
        · have ends := ScalarType.ends_of_unsigned hs
          have endt := ScalarType.ends_of_unsigned ht
          omega
        · have ends := ScalarType.ends_of_unsigned hs
          have endt := ScalarType.ends_of_signed ht
          omega
        · exact ⟨rfl, rfl, double⟩
        · have ends := ScalarType.ends_of_signed hs
          have endt := ScalarType.ends_of_signed ht
          omega
      · have size : source.size = target.size := by rw [ScalarType.size, ScalarType.size, precision]
        cases hs : source.signed <;> rw [hs] at sign
        · have ends := ScalarType.ends_of_unsigned hs
          have endt := ScalarType.ends_of_unsigned sign
          omega
        · have ends := ScalarType.ends_of_signed hs
          have endt := ScalarType.ends_of_signed sign
          omega
    obtain ⟨hs, ht, double⟩ := shape
    have ends := ScalarType.ends_of_signed hs
    have endt := ScalarType.ends_of_unsigned ht
    have wrapped : target.wrap x = x + target.size := by
      refine ScalarType.eq_of_emod_eq (target.wrap_fits x) ?_ ?_
      · rw [ScalarType.fits_iff]
        omega
      · rw [target.wrap_emod, Int.add_emod_right]
    rw [wrapped] at h
    rw [hs, ht] at order
    cases op with
    | eq | ne | lt | le =>
        simp only [CmpOp.eval, decide_eq_true_eq] at h ⊢
        omega
    | gt | ge => simp [CmpOp.isEquality] at order

/-- The value lies in the interval from `low` up to `high`, which passes through the ends of the
    type if `high < low`. -/
def Between (low high value : Int) : Prop :=
  if low ≤ high then low ≤ value ∧ value ≤ high else low ≤ value ∨ value ≤ high

/-- Counted from the lower end, the values between two ends are those up to the upper end. -/
theorem between_iff_emod {ty : ScalarType} {low high value : Int} (hl : ty.fits low = true)
    (hh : ty.fits high = true) (hv : ty.fits value = true) :
    Between low high value ↔ (value - low) % ty.size ≤ (high - low) % ty.size := by
  rw [ScalarType.fits_iff] at hl hh hv
  have size := ty.size_eq
  have residue : ∀ x : Int, -ty.size < x → x < ty.size →
      x % ty.size = if 0 ≤ x then x else x + ty.size := by
    intro x above below
    split
    · exact Int.emod_eq_of_lt (by omega) below
    · rw [← Int.add_emod_right, Int.emod_eq_of_lt (by omega) (by omega)]
  rw [residue (value - low) (by omega) (by omega), residue (high - low) (by omega) (by omega)]
  unfold Between
  split <;> split <;> split <;> omega

/-- A sum is at most a limit, modulo the size, exactly if the summand lies between the numbers that
    the offset takes to zero and to the limit. -/
theorem between_wrap_iff {ty : ScalarType} {x offset limit low high : Int} (hx : ty.fits x = true)
    (hlow : low % ty.size = -offset % ty.size) (hhigh : high % ty.size = (limit - offset) % ty.size)
    (nonneg : 0 ≤ limit) (below : limit < ty.size) :
    Between (ty.wrap low) (ty.wrap high) x ↔ (x + offset) % ty.size ≤ limit := by
  have fromLow : (x - ty.wrap low) % ty.size = (x + offset) % ty.size := by
    rw [Int.sub_emod, ty.wrap_emod, hlow, ← Int.sub_emod]
    congr 1
    omega
  have toHigh : (ty.wrap high - ty.wrap low) % ty.size = limit := by
    rw [Int.sub_emod, ty.wrap_emod, ty.wrap_emod, hlow, hhigh, ← Int.sub_emod]
    rw [show limit - offset - -offset = limit by omega]
    exact Int.emod_eq_of_lt nonneg below
  rw [between_iff_emod (ty.wrap_fits low) (ty.wrap_fits high) hx, fromLow, toHigh]

/-- A comparison with an unsigned constant as membership in an interval from zero. -/
theorem rangeTest?_spec {op : CmpOp} {value limit : Int} {negated : Bool} (nonneg : 0 ≤ value)
    (h : Function.rangeTest? op value = some (negated, limit)) :
    0 ≤ limit ∧ limit ≤ value ∧ ∀ y, op.eval y value = true → (y ≤ limit ↔ negated = false) := by
  cases op with
  | le | gt =>
      cases h
      simp only [CmpOp.eval, decide_eq_true_eq]
      refine ⟨nonneg, Int.le_refl _, fun y hy => ?_⟩
      simp only [iff_true, reduceCtorEq, iff_false]
      omega
  | lt | ge =>
      simp only [Function.rangeTest?] at h
      split at h
      · cases h
        simp only [CmpOp.eval, decide_eq_true_eq]
        refine ⟨by omega, by omega, fun y hy => ?_⟩
        simp only [iff_true, reduceCtorEq, iff_false]
        omega
      · cases h
  | eq | ne => cases h

namespace Wide

theorem eq_of_check {x y : Int} (h : check x = some y) : y = x := by
  unfold check at h
  split at h
  · cases h
    rfl
  · cases h

theorem and_zero (a : Int) : Wide.and a 0 = 0 := by
  simp [Wide.and]

theorem zero_and (a : Int) : Wide.and 0 a = 0 := by
  simp [Wide.and]

/-- A number and its wide word agree in their low bits. -/
theorem toNat_ofInt_emod (a : Int) {n : Nat} (hn : n ≤ 128) :
    ((BitVec.ofInt 128 a).toNat : Int) % (twoPow n : Int) = a % (twoPow n : Int) := by
  have divides : ((twoPow n : Nat) : Int) ∣ ((2 ^ 128 : Nat) : Int) :=
    Int.natCast_dvd_natCast.mpr (Nat.pow_dvd_pow 2 hn)
  rw [BitVec.toNat_ofInt, Int.toNat_of_nonneg (Int.emod_nonneg _ (by decide))]
  exact Int.emod_emod_of_dvd a divides

/-- If the low bits of a disjunction are all zero, so are those of its left side. -/
theorem emod_eq_zero_of_or {a b : Int} {n : Nat} (hn : n ≤ 128)
    (h : Wide.or a b % (twoPow n : Int) = 0) : a % (twoPow n : Int) = 0 := by
  have word : (((BitVec.ofInt 128 a).toNat ||| (BitVec.ofInt 128 b).toNat : Nat) : Int) %
      (twoPow n : Int) = 0 := by
    rw [← BitVec.toNat_or, ← h]
    unfold Wide.or
    rw [← toNat_ofInt_emod (BitVec.toInt _) hn, BitVec.ofInt_toInt]
  have low : ((BitVec.ofInt 128 a).toNat ||| (BitVec.ofInt 128 b).toNat) % 2 ^ n = 0 := by
    exact_mod_cast word
  rw [Nat.or_mod_two_pow, Nat.or_eq_zero_iff] at low
  rw [← toNat_ofInt_emod a hn]
  exact_mod_cast low.1

theorem or_comm (a b : Int) : Wide.or a b = Wide.or b a := by
  unfold Wide.or
  rw [BitVec.or_comm]

end Wide

namespace BinaryOp

/-- A conjunction that is not zero has no side that is zero. -/
theorem ne_zero_of_bitAnd {a b v : Int} {ty : ScalarType} (h : bitAnd.fold a b ty = some v)
    (nonzero : v ≠ 0) : a ≠ 0 ∧ b ≠ 0 := by
  obtain ⟨exact, hexact, rfl⟩ := fold_eq_some h
  have zero : Wide.and a b = 0 → ty.wrap exact = 0 := by
    intro side
    rw [← Option.some.inj hexact, side]
    exact ScalarType.wrap_of_fits ty.fits_zero
  refine ⟨?_, ?_⟩
  · rintro rfl
    exact nonzero (zero (Wide.zero_and b))
  · rintro rfl
    exact nonzero (zero (Wide.and_zero a))

/-- A disjunction of two values of a type is zero only if both are. -/
theorem eq_zero_of_bitOr {a b : Int} {ty : ScalarType} (h : bitOr.fold a b ty = some 0)
    (ha : ty.fits a = true) (hb : ty.fits b = true) : a = 0 ∧ b = 0 := by
  obtain ⟨exact, hexact, zero⟩ := fold_eq_some h
  have wide : ty.precision ≤ 128 := Nat.le_trans ty.precision_le (by decide)
  have left : Wide.or a b % ty.size = 0 := by
    rw [Option.some.inj hexact, ← ty.wrap_emod, ← zero, Int.zero_emod]
  have right : Wide.or b a % ty.size = 0 := by
    rw [Wide.or_comm]
    exact left
  have boundA := ScalarType.abs_lt_size ha
  have boundB := ScalarType.abs_lt_size hb
  exact ⟨ScalarType.eq_zero_of_emod_eq_zero boundA.1 boundA.2 (Wide.emod_eq_zero_of_or wide left),
    ScalarType.eq_zero_of_emod_eq_zero boundB.1 boundB.2 (Wide.emod_eq_zero_of_or wide right)⟩

end BinaryOp

/-- The truth value of a comparison is not zero exactly if the comparison holds. -/
theorem wrap_truth_ne_zero {ty : ScalarType} {truth : Bool} :
    ty.wrap (if truth then 1 else 0) ≠ 0 ↔ truth = true := by
  have size : 1 < ty.size := by
    have least := ty.minValue_nonpos
    have precision : twoPow 1 ≤ twoPow ty.precision :=
      Nat.pow_le_pow_right (by decide) ty.precision_pos
    have two : twoPow 1 = 2 := rfl
    unfold ScalarType.size
    omega
  cases truth with
  | true => simp [ScalarType.wrap_eq_zero_iff (x := 1) (by omega) size]
  | false => simp [ScalarType.wrap_of_fits ty.fits_zero]

/-- A negation is not zero exactly if its operand is zero. -/
theorem UnaryOp.truthNot_ne_zero {x v : Int} {source target : ScalarType}
    (h : truthNot.fold x source target = some v) : v ≠ 0 ↔ x = 0 := by
  obtain ⟨exact, hexact, rfl⟩ := fold_eq_some h
  have truth : exact = if decide (x = 0) then 1 else 0 := by
    simpa [applyExact] using hexact.symm
  rw [truth, wrap_truth_ne_zero, decide_eq_true_eq]

end RangeFlow
