import Mathlib
import RangeFlow.Proofs.Bitwise

/-! # The known bits of an interval are exact

Where the words of the ends of an interval of one sign differ, the interval contains the number at
which the highest differing bit is first set. It and its predecessor have all bits from there down
the other way round, so each of these bits is set in one value and clear in another one. Above them
all values agree with the ends. An interval with zero inside contains all bits in minus one and none
in zero.
-/

namespace RangeFlow

section Words

variable {n : Nat}

/-- The disjunction of the words of numbers, bit by bit. -/
def someBits (values : Finset Int) (word : Int → BitVec n) : BitVec n :=
  values.fold (· ||| ·) 0#n word

/-- The conjunction of the words of numbers, bit by bit. -/
def allBits (values : Finset Int) (word : Int → BitVec n) : BitVec n :=
  values.fold (· &&& ·) (BitVec.allOnes n) word

variable (values : Finset Int) (word : Int → BitVec n) (i : Nat)

theorem getLsbD_someBits : (someBits values word).getLsbD i = true ↔
    ∃ v ∈ values, (word v).getLsbD i = true := by
  unfold someBits
  induction values using Finset.induction_on with
  | empty => simp
  | insert v rest new ih =>
      rw [Finset.fold_insert new, BitVec.getLsbD_or, Bool.or_eq_true, ih]
      simp

theorem getLsbD_allBits : (allBits values word).getLsbD i = true ↔
    i < n ∧ ∀ v ∈ values, (word v).getLsbD i = true := by
  unfold allBits
  induction values using Finset.induction_on with
  | empty => simp
  | insert v rest new ih =>
      rw [Finset.fold_insert new, BitVec.getLsbD_and, Bool.and_eq_true, ih]
      simp only [Finset.forall_mem_insert]
      exact and_left_comm

end Words

/-- Between two words whose highest differing bit is bit `d` lies the one at which this bit is first
    set. -/
theorem exists_first_set {low high d : Nat} (order : low ≤ high)
    (differ : (low ^^^ high).testBit d = true) (agree : low ^^^ high < 2 ^ (d + 1)) :
    ∃ q, low < 2 ^ d * (2 * q + 1) ∧ 2 ^ d * (2 * q + 1) ≤ high := by
  have above : low / 2 ^ d / 2 = high / 2 ^ d / 2 := by
    have none : (low ^^^ high) / 2 ^ (d + 1) = 0 := Nat.div_eq_of_lt agree
    rw [Nat.xor_div_two_pow] at none
    have same := Nat.eq_of_xor_eq_zero none
    rwa [Nat.pow_succ, ← Nat.div_div_eq_div_mul, ← Nat.div_div_eq_div_mul] at same
  have here : low / 2 ^ d % 2 ≠ high / 2 ^ d % 2 := by
    rw [Nat.testBit_xor] at differ
    simp only [Nat.testBit_eq_decide_div_mod_eq, bne_iff_ne, ne_eq, decide_eq_decide] at differ
    omega
  have grows : low / 2 ^ d ≤ high / 2 ^ d := Nat.div_le_div_right order
  have odd : 2 * (high / 2 ^ d / 2) + 1 = high / 2 ^ d := by omega
  refine ⟨high / 2 ^ d / 2, ?_, ?_⟩
  · rw [odd, Nat.mul_comm, ← Nat.div_lt_iff_lt_mul (Nat.two_pow_pos d)]
    omega
  · rw [odd]
    exact Nat.mul_div_le high (2 ^ d)

/-- Each bit up to the highest one in which two words differ is set in a word between them and clear
    in another one. -/
theorem exists_both_settings {low high d i : Nat} (order : low ≤ high)
    (differ : (low ^^^ high).testBit d = true) (agree : low ^^^ high < 2 ^ (d + 1)) (le : i ≤ d) :
    (∃ w, low ≤ w ∧ w ≤ high ∧ w.testBit i = true) ∧
      ∃ w, low ≤ w ∧ w ≤ high ∧ w.testBit i = false := by
  obtain ⟨q, above, below⟩ := exists_first_set order differ agree
  have positive := Nat.two_pow_pos d
  have after : 2 ^ d * (2 * q + 1) = 2 ^ d * (2 * q) + (2 ^ d - 1) + 1 := by
    rw [Nat.mul_succ]
    omega
  -- the first word with bit `d` has no bit below it, and the word before it has all of them
  have first : (2 ^ d * (2 * q + 1)).testBit i = decide (i = d) := by
    rw [Nat.testBit_two_pow_mul]
    rcases Nat.lt_or_eq_of_le le with inside | rfl
    · simp [Nat.not_le.mpr inside, Nat.ne_of_lt inside]
    · simp [Nat.testBit_zero]
  have last : (2 ^ d * (2 * q) + (2 ^ d - 1)).testBit i = decide (i < d) := by
    rw [Nat.testBit_two_pow_mul_add _ (by omega), Nat.testBit_two_pow_sub_one]
    rcases Nat.lt_or_eq_of_le le with inside | rfl
    · simp [inside]
    · simp [Nat.testBit_zero]
  rcases Nat.lt_or_eq_of_le le with inside | rfl
  · refine ⟨⟨_, ?_, ?_, last.trans (decide_eq_true inside)⟩,
      ⟨_, ?_, below, first.trans (decide_eq_false (Nat.ne_of_lt inside))⟩⟩ <;> omega
  · refine ⟨⟨_, ?_, below, first.trans (decide_eq_true rfl)⟩,
      ⟨_, ?_, ?_, last.trans (decide_eq_false (Nat.lt_irrefl i))⟩⟩ <;> omega

theorem exists_highest_bit {bits : Nat} (nonzero : bits ≠ 0) :
    ∃ d, lowMask bits = twoPow (d + 1) - 1 ∧ bits.testBit d = true ∧ bits < 2 ^ (d + 1) := by
  refine ⟨Nat.log2 bits, if_neg nonzero, ?_, Nat.lt_log2_self⟩
  exact Nat.testBit_of_two_pow_le_and_two_pow_add_one_gt (Nat.log2_self_le nonzero)
    Nat.lt_log2_self

namespace KnownBits

variable {ty : ScalarType} {lo hi v : Int} {i : Nat}

theorem toBits_mono (hlo : ty.fits lo = true) (hhi : ty.fits hi = true) (sign : 0 ≤ lo ∨ hi < 0)
    (order : lo ≤ hi) : ty.toBits lo ≤ ty.toBits hi := by
  have first := ScalarType.natCast_toBits_of_fits hlo
  have last := ScalarType.natCast_toBits_of_fits hhi
  split at first <;> split at last <;> omega

/-- Between values of one sign lie the values of all words between their words. -/
theorem exists_value (hlo : ty.fits lo = true) (hhi : ty.fits hi = true)
    (sign : 0 ≤ lo ∨ hi < 0) {w : Nat} (above : ty.toBits lo ≤ w) (below : w ≤ ty.toBits hi)
    (order : lo ≤ hi) : ∃ v, lo ≤ v ∧ v ≤ hi ∧ ty.toBits v = w := by
  have first := ScalarType.natCast_toBits_of_fits hlo
  have last := ScalarType.natCast_toBits_of_fits hhi
  refine ⟨lo + (w - ty.toBits lo : Nat), ?_⟩
  have within : lo ≤ lo + (w - ty.toBits lo : Nat) ∧ lo + (w - ty.toBits lo : Nat) ≤ hi := by
    split at first <;> split at last <;> omega
  have fits : ty.fits (lo + (w - ty.toBits lo : Nat)) = true := by
    rw [ScalarType.fits_iff] at *
    omega
  have value := ScalarType.natCast_toBits_of_fits fits
  refine ⟨within.1, within.2, ?_⟩
  split at first <;> split at value <;> omega

theorem toBits_neg_one (h : ty.fits (-1) = true) : ty.toBits (-1) = ty.mask := by
  have word := ScalarType.natCast_toBits_of_fits h
  have positive := twoPow_pos ty.precision
  rw [if_neg (by decide), ScalarType.size] at word
  unfold ScalarType.mask
  omega

/-- A bit of the words of an interval is free, or it is that of the lower end. -/
theorem between_bit (hlo : ty.fits lo = true) (hhi : ty.fits hi = true) (order : lo ≤ hi)
    (inside : i < ty.precision) :
    ((between ty lo hi).may.testBit i = true ∧ (between ty lo hi).must.testBit i = false ∧
      (∃ v, lo ≤ v ∧ v ≤ hi ∧ (ty.toBits v).testBit i = true) ∧
      ∃ v, lo ≤ v ∧ v ≤ hi ∧ (ty.toBits v).testBit i = false) ∨
    ((between ty lo hi).may.testBit i = (ty.toBits lo).testBit i ∧
      (between ty lo hi).must.testBit i = (ty.toBits lo).testBit i) := by
  unfold between
  dsimp only
  split
  · next sign =>
      have words := toBits_mono hlo hhi sign order
      by_cases same : ty.toBits lo ^^^ ty.toBits hi = 0
      · right
        rw [same, ← Nat.eq_of_xor_eq_zero same]
        simp [lowMask, ty.testBit_mask, inside]
      · obtain ⟨d, free, differ, agree⟩ := exists_highest_bit same
        have freeBit : (lowMask (ty.toBits lo ^^^ ty.toBits hi)).testBit i =
          decide (i < d + 1) := by
          rw [free]
          exact Nat.testBit_two_pow_sub_one ..
        by_cases le : i ≤ d
        · left
          have isFree : (lowMask (ty.toBits lo ^^^ ty.toBits hi)).testBit i = true :=
            freeBit.trans (decide_eq_true (Nat.lt_succ_of_le le))
          obtain ⟨⟨w, above, below, set⟩, ⟨w', above', below', clear⟩⟩ :=
            exists_both_settings words differ agree le
          obtain ⟨v, first, last, value⟩ := exists_value hlo hhi sign above below order
          obtain ⟨v', first', last', value'⟩ := exists_value hlo hhi sign above' below' order
          refine ⟨?_, ?_, ⟨v, first, last, value ▸ set⟩, ⟨v', first', last', value' ▸ clear⟩⟩
          · simp [isFree]
          · simp [isFree, ty.testBit_mask, inside]
        · right
          have notFree : (lowMask (ty.toBits lo ^^^ ty.toBits hi)).testBit i = false :=
            freeBit.trans (decide_eq_false (by omega))
          have alike := testBit_of_between (i := i) words (Nat.le_refl _) agree (by omega)
          simp [notFree, ty.testBit_mask, inside, alike.1]
  · next sign =>
      left
      have minusOne : ty.fits (-1) = true := by
        rw [ScalarType.fits_iff] at *
        omega
      refine ⟨?_, Nat.zero_testBit i, ⟨-1, by omega, by omega, ?_⟩, ⟨0, by omega, by omega, ?_⟩⟩
      · simp [ty.testBit_mask, inside]
      · simp [toBits_neg_one minusOne, ty.testBit_mask, inside]
      · simp [ScalarType.toBits]

theorem may_exact (hlo : ty.fits lo = true) (hhi : ty.fits hi = true) (order : lo ≤ hi) :
    (between ty lo hi).may.testBit i = true ↔
      ∃ v, lo ≤ v ∧ v ≤ hi ∧ (ty.toBits v).testBit i = true := by
  constructor
  · intro set
    have bound := (between_allows hlo hhi ⟨Int.le_refl lo, order⟩).bound
    rcases between_bit hlo hhi order (ScalarType.lt_precision_of_testBit bound set) with
      ⟨-, -, found, -⟩ | ⟨may, -⟩
    · exact found
    · exact ⟨lo, Int.le_refl lo, order, may ▸ set⟩
  · rintro ⟨v, above, below, set⟩
    exact (between_allows hlo hhi ⟨above, below⟩).may i set

theorem must_exact (hlo : ty.fits lo = true) (hhi : ty.fits hi = true) (order : lo ≤ hi) :
    (between ty lo hi).must.testBit i = true ↔ i < ty.precision ∧
      ∀ v, lo ≤ v → v ≤ hi → (ty.toBits v).testBit i = true := by
  constructor
  · intro set
    have all : ∀ v, lo ≤ v → v ≤ hi → (ty.toBits v).testBit i = true :=
      fun v above below => (between_allows hlo hhi ⟨above, below⟩).must i set
    have first := all lo (Int.le_refl lo) order
    exact ⟨ScalarType.lt_precision_of_testBit (ty.toBits_lt lo) first, all⟩
  · rintro ⟨inside, all⟩
    rcases between_bit hlo hhi order inside with ⟨-, -, -, v, above, below, clear⟩ | ⟨-, must⟩
    · rw [all v above below] at clear
      cases clear
    · exact must.trans (all lo (Int.le_refl lo) order)

end KnownBits

theorem ScalarType.toNat_ofInt (ty : ScalarType) (x : Int) :
    (BitVec.ofInt ty.precision x).toNat = ty.toBits x := BitVec.toNat_ofInt x

/-- The bits of an interval are exact: those that may be set are the ones set in some value of the
    interval, and those that must be set are the ones set in all of them. -/
theorem ValueRange.knownBits_exact {ty : ScalarType} {lo hi : Int} (hlo : ty.fits lo = true)
    (hhi : ty.fits hi = true) (order : lo ≤ hi) :
    (range (.const lo) (.const hi)).knownBits ty =
      ⟨(someBits (Finset.Icc lo hi) (BitVec.ofInt ty.precision)).toNat,
        (allBits (Finset.Icc lo hi) (BitVec.ofInt ty.precision)).toNat, true⟩ := by
  have bit (v : Int) (i : Nat) :
      (BitVec.ofInt ty.precision v).getLsbD i = (ty.toBits v).testBit i := by
    rw [← BitVec.testBit_toNat, ScalarType.toNat_ofInt]
  have may : (KnownBits.between ty lo hi).may =
      (someBits (Finset.Icc lo hi) (BitVec.ofInt ty.precision)).toNat := by
    apply Nat.eq_of_testBit_eq
    intro i
    rw [BitVec.testBit_toNat, Bool.eq_iff_iff, KnownBits.may_exact hlo hhi order, getLsbD_someBits]
    simp only [Finset.mem_Icc, and_assoc, bit]
  have must : (KnownBits.between ty lo hi).must =
      (allBits (Finset.Icc lo hi) (BitVec.ofInt ty.precision)).toNat := by
    apply Nat.eq_of_testBit_eq
    intro i
    rw [BitVec.testBit_toNat, Bool.eq_iff_iff, KnownBits.must_exact hlo hhi order,
      getLsbD_allBits]
    simp only [Finset.mem_Icc, and_imp, bit]
  rw [← may, ← must]
  change KnownBits.between ty lo hi = _
  unfold KnownBits.between
  dsimp only
  split <;> rfl

/-- The words of -6, -5, -4 and -3 end in `1010`, `1011`, `1100` and `1101`. -/
theorem ValueRange.knownBits_exact_minusSix :
    let values := Finset.Icc (-6 : Int) (-3)
    (range (.const (-6)) (.const (-3))).knownBits (.int ⟨8, eight_bits⟩ .signed) =
        ⟨(someBits values (BitVec.ofInt 8)).toNat, (allBits values (BitVec.ofInt 8)).toNat, true⟩ ∧
      someBits values (BitVec.ofInt 8) = 0b11111111#8 ∧
      allBits values (BitVec.ofInt 8) = 0b11111000#8 := by
  intro values
  refine ⟨knownBits_exact rfl rfl (by decide), ?_, ?_⟩ <;> decide

end RangeFlow
