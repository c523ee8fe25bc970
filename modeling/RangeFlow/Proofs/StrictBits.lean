import RangeFlow.Proofs.StrictRanges

/-! # Strict bits are the exact bits

Bitwise operators read numbers as words of 128 bits and cut them to the precision of the type. No
mask is wider than a type, so making one loses no bit; complements taken over a whole word and over
the bits of a type agree once they are cut.
-/

namespace RangeFlow

theorem lowMask_lt {bits n : Nat} (small : bits < twoPow n) : lowMask bits < twoPow n := by
  obtain ⟨d, mask, -, least⟩ := lowMask_eq bits
  have grows : twoPow d ≤ twoPow n := Nat.pow_le_pow_right (by decide) (least n small)
  have := twoPow_pos d
  omega

/-- No bit beyond the precision of the type is known to be set. -/
theorem KnownBits.between_lt (ty : ScalarType) (lo hi : Int) :
    (between ty lo hi).may < twoPow ty.precision ∧
      (between ty lo hi).must < twoPow ty.precision := by
  have low := ty.toBits_lt lo
  have high := ty.toBits_lt hi
  have free := lowMask_lt (Nat.xor_lt_two_pow low high)
  unfold between
  dsimp only
  split
  · exact ⟨Nat.or_lt_two_pow (Nat.or_lt_two_pow low high) free,
      Nat.lt_of_le_of_lt Nat.and_le_left (Nat.lt_of_le_of_lt Nat.and_le_left low)⟩
  · exact ⟨ty.mask_lt, twoPow_pos _⟩

theorem ValueRange.knownBits_lt (ty : ScalarType) (vr : ValueRange) :
    (vr.knownBits ty).may < twoPow ty.precision ∧
      (vr.knownBits ty).must < twoPow ty.precision := by
  unfold knownBits
  split
  · split
    · exact KnownBits.between_lt ty _ _
    · exact ⟨ty.mask_lt, twoPow_pos _⟩
  · exact ⟨ty.mask_lt, twoPow_pos _⟩

namespace Strict

open ValueRange (Ends)

variable {ty : ScalarType} {a b vr : ValueRange} {bits word : Nat}

theorem toBits_eq (ty : ScalarType) (value : Int) : toBits ty value = pure (ty.toBits value) := by
  rw [toBits, mask_eq, pure_bind, ScalarType.toBits_eq]
  exact congrArg pure (Nat.and_two_pow_sub_one_eq_mod ..)

/-- Only the bits of the type count. -/
theorem ofBits_eq (ty : ScalarType) (bits : Nat) :
    ofBits ty bits = pure (ty.ofBits (bits &&& ty.mask)) := by
  have small : bits &&& ty.mask < 2 ^ 64 := by
    have mask := ty.mask_lt
    have width : twoPow ty.precision ≤ 2 ^ 64 := Nat.pow_le_pow_right (by decide) ty.precision_le
    exact Nat.lt_of_le_of_lt Nat.and_le_right (Nat.lt_of_lt_of_le mask width)
  have word : (BitVec.ofNat 128 (bits &&& ty.mask)).toInt = ((bits &&& ty.mask : Nat) : Int) := by
    have value : (BitVec.ofNat 128 (bits &&& ty.mask)).toNat = bits &&& ty.mask := by
      rw [BitVec.toNat_ofNat, Nat.mod_eq_of_lt (by omega)]
    rw [BitVec.toInt_eq_toNat_of_lt (by omega), value]
  rw [ofBits, mask_eq, pure_bind, wrap_eq, word]
  rfl

theorem and_mask (small : bits < twoPow ty.precision) : bits &&& ty.mask = bits :=
  (Nat.and_two_pow_sub_one_eq_mod ..).trans (Nat.mod_eq_of_lt small)

/-- Among the bits of the type, a whole complement is the complement. -/
theorem testBit_complement {i : Nat} (inside : i < ty.precision) :
    (complement word).testBit i = !word.testBit i := by
  have width : i < 128 := Nat.lt_of_lt_of_le inside (Nat.le_trans ty.precision_le (by decide))
  have ones : (twoPow 128 - 1).testBit i = decide (i < 128) := Nat.testBit_two_pow_sub_one ..
  simp [complement, Nat.testBit_xor, ones, width]

theorem and_complement (small : bits < twoPow ty.precision) :
    bits &&& complement word = bits &&& (ty.mask ^^^ word) := by
  apply Nat.eq_of_testBit_eq
  intro i
  cases set : bits.testBit i with
  | false => simp [Nat.testBit_and, set]
  | true =>
      have inside := ScalarType.lt_precision_of_testBit small set
      simp [Nat.testBit_and, Nat.testBit_xor, testBit_complement inside, ty.testBit_mask, inside]

theorem complement_and_mask : complement word &&& ty.mask = ty.mask ^^^ (word &&& ty.mask) := by
  apply Nat.eq_of_testBit_eq
  intro i
  by_cases inside : i < ty.precision
  · simp [Nat.testBit_and, Nat.testBit_xor, testBit_complement inside, ty.testBit_mask, inside]
  · simp [Nat.testBit_and, Nat.testBit_xor, ty.testBit_mask, inside]

theorem bitsBetween_eq (ty : ScalarType) (lo hi : Int) :
    bitsBetween ty lo hi = pure (.between ty lo hi) := by
  have low := ty.toBits_lt lo
  have both : ty.toBits lo &&& ty.toBits hi < twoPow ty.precision :=
    Nat.lt_of_le_of_lt Nat.and_le_left low
  have differ := Nat.xor_lt_two_pow low (ty.toBits_lt hi)
  simp only [bitsBetween, KnownBits.between, toBits_eq, mask_eq, pure_bind]
  by_cases same : lo = hi
  · subst same
    have sign : 0 ≤ lo ∨ lo < 0 := by omega
    simp [sign, lowMask, and_mask low]
  · rw [if_neg same]
    split
    · by_cases equal : ty.toBits lo ^^^ ty.toBits hi = 0
      · simp [equal, lowMask, and_mask both]
      · have width : Nat.log2 (ty.toBits lo ^^^ ty.toBits hi) + 1 ≤ 64 :=
          Nat.le_trans ((Nat.log2_lt equal).mpr differ) ty.precision_le
        simp only [if_neg equal, lowMask, lowestBits_eq width, pure_bind, and_complement both]
    · rfl

theorem knownBits_eq (ty : ScalarType) (vr : ValueRange) :
    knownBits ty vr = pure (vr.knownBits ty) := by
  unfold knownBits ValueRange.knownBits
  rw [mask_eq]
  split
  · cases vr.constBounds? ty with
    | none => rfl
    | some ends => exact bitsBetween_eq ty ends.1 ends.2
  · rfl

theorem bitwiseEnds_eq (op : BinaryOp) (ty : ScalarType) (a b : ValueRange) :
    bitwiseEnds op ty a b = pure (match op with
      | .bitAnd => ValueRange.andEnds ty a b
      | .bitOr => ValueRange.orEnds ty a b
      | _ => ValueRange.xorEnds ty a b) := by
  obtain ⟨may0, must0⟩ := a.knownBits_lt ty
  obtain ⟨may1, must1⟩ := b.knownBits_lt ty
  have musts : (a.knownBits ty).must &&& (b.knownBits ty).must < twoPow ty.precision :=
    Nat.lt_of_le_of_lt Nat.and_le_left must0
  have mays : (a.knownBits ty).may &&& (b.knownBits ty).may < twoPow ty.precision :=
    Nat.lt_of_le_of_lt Nat.and_le_left may0
  simp only [bitwiseEnds, knownBits_eq, ofBits_eq, pure_bind]
  cases op with
  | bitAnd =>
      rw [and_mask musts, and_mask mays]
      rfl
  | bitOr =>
      rw [and_mask (Nat.or_lt_two_pow must0 must1), and_mask (Nat.or_lt_two_pow may0 may1)]
      rfl
  | _ =>
      have ones := Nat.or_lt_two_pow
        (Nat.lt_of_le_of_lt (Nat.and_le_left (m := ty.mask ^^^ (b.knownBits ty).may)) must0)
        (Nat.lt_of_le_of_lt (Nat.and_le_left (m := ty.mask ^^^ (a.knownBits ty).may)) must1)
      simp only [and_complement must0, and_complement must1, and_mask ones, complement_and_mask,
        Nat.and_or_distrib_right, and_mask musts, and_mask (Nat.or_lt_two_pow may0 may1)]
      rfl

theorem cutMost_near {most : Int} {ends0 ends1 : Option (Int × Int)} (hmost : Near most)
    (h0 : ∀ x ∈ ends0, Near x.2) (h1 : ∀ x ∈ ends1, Near x.2) :
    Near (cutMost most ends0 ends1) := by
  rcases ends0 with _ | ⟨lo0, hi0⟩ <;> rcases ends1 with _ | ⟨lo1, hi1⟩ <;>
    simp only [cutMost, near_iff, Option.mem_def, Option.some.injEq, forall_eq', reduceCtorEq,
      false_implies, implies_true] at * <;> grind

theorem cutLeast_near {least : Int} {ends0 ends1 : Option (Int × Int)} (hleast : Near least)
    (h0 : ∀ x ∈ ends0, Near x.1) (h1 : ∀ x ∈ ends1, Near x.1) :
    Near (cutLeast least ends0 ends1) := by
  rcases ends0 with _ | ⟨lo0, hi0⟩ <;> rcases ends1 with _ | ⟨lo1, hi1⟩ <;>
    simp only [cutLeast, near_iff, Option.mem_def, Option.some.injEq, forall_eq', reduceCtorEq,
      false_implies, implies_true] at * <;> grind

theorem ofBits_near (ty : ScalarType) (bits : Nat) : Near (ty.ofBits bits) :=
  ScalarType.near_of_fits (ValueRange.ofBits_fits ty bits)

theorem known_near {known : Bool} (h : vr.Ends Near) :
    ∀ x ∈ (if known then vr.constBounds? ty else none), Near x.1 ∧ Near x.2 := by
  intro x member
  cases known with
  | false => cases member
  | true => exact h.near member

theorem bitwise_eq (op : BinaryOp) (ha : a.Ends Near) (hb : b.Ends Near) :
    bitwise op ty a b = pure (ValueRange.bitwise op ty a b) := by
  rw [bitwise, bitwiseEnds_eq, pure_bind]
  cases op with
  | bitAnd =>
      exact finish_inside_eq (ofBits_near ty _) (cutMost_near (ofBits_near ty _)
        (fun x member => (known_near ha x member).2) fun x member => (known_near hb x member).2)
  | bitOr =>
      exact finish_inside_eq (cutLeast_near (ofBits_near ty _)
        (fun x member => (known_near ha x member).1) fun x member => (known_near hb x member).1)
        (ofBits_near ty _)
  | _ =>
      simp only [reduceCtorEq, false_or, ValueRange.bitwise]
      split
      · exact finish_inside_eq (ofBits_near ty _) (ofBits_near ty _)
      · rfl

end Strict

end RangeFlow
