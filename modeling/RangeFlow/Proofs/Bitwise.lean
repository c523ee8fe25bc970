import Mathlib.Data.Nat.Bitwise
import RangeFlow.Proofs.Intervals

/-! # Bitwise operators

Values are compared through their words. Between two values of one sign, the words agree with those
of the ends above the highest bit in which the ends differ, and this is all that is known about the
bits of a range. Words between two words of one sign are values between the values of these words.
-/

namespace RangeFlow

namespace ScalarType

variable {ty : ScalarType} {x : Int}

theorem toBits_lt (ty : ScalarType) (x : Int) : ty.toBits x < twoPow ty.precision := by
  have nonneg := Int.emod_nonneg x (Int.ne_of_gt ty.size_pos)
  have below := Int.emod_lt_of_pos x ty.size_pos
  unfold toBits
  unfold size at *
  omega

theorem natCast_toBits (ty : ScalarType) (x : Int) : (ty.toBits x : Int) = x % ty.size :=
  Int.toNat_of_nonneg (Int.emod_nonneg x (Int.ne_of_gt ty.size_pos))

theorem natCast_toBits_of_fits (h : ty.fits x = true) :
    (ty.toBits x : Int) = if 0 ≤ x then x else x + ty.size := by
  have bounds := abs_lt_size h
  rw [natCast_toBits]
  split
  · exact Int.emod_eq_of_lt (by omega) bounds.2
  · rw [← Int.add_emod_right, Int.emod_eq_of_lt (by omega) (by omega)]

theorem wrap_eq_ofBits (ty : ScalarType) (x : Int) : ty.wrap x = ty.ofBits (ty.toBits x) := by
  refine wrap_eq_of_emod_eq ?_
  rw [natCast_toBits, Int.emod_emod]

theorem ofBits_eq (ty : ScalarType) {bits : Nat} (h : bits < twoPow ty.precision) :
    ty.ofBits bits = if ty.signed = true ∧ ty.maxValue < bits then bits - ty.size else bits := by
  have small : (bits : Int) % ty.size = bits := Int.emod_eq_of_lt (by omega) (by unfold size; omega)
  simp [ofBits, wrap, small]

/-- The values of words in order, unless the first is not negative and the last is. -/
theorem ofBits_enclose (ty : ScalarType) {low bits high : Nat} (hlow : low ≤ bits)
    (hhigh : bits ≤ high) (h : high < twoPow ty.precision) : ty.ofBits high < ty.ofBits low ∨
      ty.ofBits low ≤ ty.ofBits bits ∧ ty.ofBits bits ≤ ty.ofBits high := by
  have hbits : bits < twoPow ty.precision := Nat.lt_of_le_of_lt hhigh h
  rw [ofBits_eq ty (Nat.lt_of_le_of_lt hlow hbits), ofBits_eq ty hbits, ofBits_eq ty h]
  have size : high < ty.size := by
    unfold ScalarType.size
    omega
  cases ty.signed with
  | false => simpa using Or.inr ⟨hlow, hhigh⟩
  | true =>
      simp only [true_and]
      split <;> split <;> split <;> omega

theorem toBits_toInt (ty : ScalarType) (word : BitVec 128) :
    ty.toBits word.toInt = word.toNat % twoPow ty.precision := by
  have wide : ty.precision ≤ 128 := Nat.le_trans ty.precision_le (by decide)
  have low := Wide.toNat_ofInt_emod word.toInt wide
  rw [BitVec.ofInt_toInt] at low
  have cast := natCast_toBits ty word.toInt
  unfold size at cast
  rw [← low] at cast
  exact_mod_cast cast

theorem toBits_eq (ty : ScalarType) (x : Int) :
    ty.toBits x = (BitVec.ofInt 128 x).toNat % twoPow ty.precision := by
  have wide : ty.precision ≤ 128 := Nat.le_trans ty.precision_le (by decide)
  have low := Wide.toNat_ofInt_emod x wide
  have cast := natCast_toBits ty x
  unfold size at cast
  rw [← low] at cast
  exact_mod_cast cast

theorem toBits_and (ty : ScalarType) (x y : Int) :
    ty.toBits (Wide.and x y) = ty.toBits x &&& ty.toBits y := by
  rw [Wide.and, toBits_toInt, toBits_eq, toBits_eq, BitVec.toNat_and]
  exact Nat.and_mod_two_pow

theorem toBits_or (ty : ScalarType) (x y : Int) :
    ty.toBits (Wide.or x y) = ty.toBits x ||| ty.toBits y := by
  rw [Wide.or, toBits_toInt, toBits_eq, toBits_eq, BitVec.toNat_or]
  exact Nat.or_mod_two_pow

theorem toBits_xor (ty : ScalarType) (x y : Int) :
    ty.toBits (Wide.xor x y) = ty.toBits x ^^^ ty.toBits y := by
  rw [Wide.xor, toBits_toInt, toBits_eq, toBits_eq, BitVec.toNat_xor]
  exact Nat.xor_mod_two_pow

theorem testBit_mask (ty : ScalarType) (i : Nat) :
    ty.mask.testBit i = decide (i < ty.precision) :=
  Nat.testBit_two_pow_sub_one ..

theorem lt_precision_of_testBit {bits i : Nat} (small : bits < twoPow ty.precision)
    (h : bits.testBit i = true) : i < ty.precision := by
  refine Nat.lt_of_not_le fun far => ?_
  have least : bits < 2 ^ i := Nat.lt_of_lt_of_le small (Nat.pow_le_pow_right (by decide) far)
  rw [Nat.testBit_lt_two_pow least] at h
  cases h

theorem mask_lt (ty : ScalarType) : ty.mask < twoPow ty.precision := by
  have := twoPow_pos ty.precision
  unfold mask
  omega

end ScalarType

/-- The bits up to and with the highest bit that is set. -/
theorem lowMask_eq (bits : Nat) : ∃ d, lowMask bits = twoPow d - 1 ∧ bits < twoPow d ∧
    ∀ n, bits < twoPow n → d ≤ n := by
  unfold lowMask
  split
  · next zero => exact ⟨0, rfl, by subst zero; decide, fun n _ => Nat.zero_le n⟩
  · next nonzero =>
      refine ⟨Nat.log2 bits + 1, rfl, Nat.lt_log2_self, fun n small => ?_⟩
      exact (Nat.log2_lt nonzero).mpr small

/-- Above the bits in which two words differ, the words between them agree with both. -/
theorem testBit_of_between {low bits high d i : Nat} (hlow : low ≤ bits) (hhigh : bits ≤ high)
    (h : low ^^^ high < twoPow d) (above : d ≤ i) :
    bits.testBit i = low.testBit i ∧ bits.testBit i = high.testBit i := by
  have agree : low / 2 ^ d = high / 2 ^ d := by
    have none : (low ^^^ high) / 2 ^ d = 0 := Nat.div_eq_of_lt h
    rw [Nat.xor_div_two_pow] at none
    exact Nat.eq_of_xor_eq_zero none
  have first : low / 2 ^ d ≤ bits / 2 ^ d := Nat.div_le_div_right hlow
  have last : bits / 2 ^ d ≤ high / 2 ^ d := Nat.div_le_div_right hhigh
  have shifted : ∀ m : Nat, m.testBit i = (m / 2 ^ d).testBit (i - d) := by
    intro m
    rw [Nat.testBit_div_two_pow, Nat.sub_add_cancel above]
  rw [shifted bits, shifted low, shifted high, show bits / 2 ^ d = low / 2 ^ d by omega]
  exact ⟨rfl, by rw [agree]⟩

/-- The word has the bits it must have, and no others than it may have. -/
structure KnownBits.Allows (known : KnownBits) (ty : ScalarType) (bits : Nat) : Prop where
  must : ∀ i, known.must.testBit i = true → bits.testBit i = true
  may : ∀ i, bits.testBit i = true → known.may.testBit i = true
  bound : known.may < twoPow ty.precision

namespace KnownBits

variable {ty : ScalarType} {x lo hi : Int}

theorem allows_mask {known : Bool} (x : Int) :
    (⟨ty.mask, 0, known⟩ : KnownBits).Allows ty (ty.toBits x) where
  must i h := by simp at h
  may i h := by
    rw [ty.testBit_mask]
    exact decide_eq_true (ScalarType.lt_precision_of_testBit (ty.toBits_lt x) h)
  bound := ty.mask_lt

theorem between_allows (hlo : ty.fits lo = true) (hhi : ty.fits hi = true)
    (within : lo ≤ x ∧ x ≤ hi) : (between ty lo hi).Allows ty (ty.toBits x) := by
  have hx : ty.fits x = true := by
    rw [ScalarType.fits_iff] at *
    omega
  unfold between
  dsimp only
  split
  · next sameSign =>
      have order : ty.toBits lo ≤ ty.toBits x ∧ ty.toBits x ≤ ty.toBits hi := by
        have first := ScalarType.natCast_toBits_of_fits hlo
        have last := ScalarType.natCast_toBits_of_fits hhi
        have value := ScalarType.natCast_toBits_of_fits hx
        split at first <;> split at last <;> split at value <;> omega
      have smallLo := ty.toBits_lt lo
      have smallHi := ty.toBits_lt hi
      obtain ⟨d, mask, differ, least⟩ := lowMask_eq (ty.toBits lo ^^^ ty.toBits hi)
      have width : d ≤ ty.precision := least _ (Nat.xor_lt_two_pow smallLo smallHi)
      have free : ∀ i, (lowMask (ty.toBits lo ^^^ ty.toBits hi)).testBit i = decide (i < d) := by
        intro i
        rw [mask]
        exact Nat.testBit_two_pow_sub_one ..
      have agree := fun i => testBit_of_between (i := i) order.1 order.2 differ
      refine ⟨fun i h => ?_, fun i h => ?_, ?_⟩
      · simp only [Nat.testBit_and, Nat.testBit_xor, ty.testBit_mask, free, Bool.and_eq_true,
          bne_iff_ne, ne_eq, decide_eq_decide] at h
        have above : d ≤ i := by
          have inside := ScalarType.lt_precision_of_testBit smallLo h.1.1
          omega
        rw [(agree i above).1]
        exact h.1.1
      · simp only [Nat.testBit_or, free, Bool.or_eq_true, decide_eq_true_eq]
        by_cases above : d ≤ i
        · exact .inl (.inl ((agree i above).1 ▸ h))
        · exact .inr (by omega)
      · refine Nat.or_lt_two_pow (Nat.or_lt_two_pow smallLo smallHi) ?_
        rw [mask]
        have := twoPow_pos d
        have grows : twoPow d ≤ twoPow ty.precision := Nat.pow_le_pow_right (by decide) width
        have whole : twoPow ty.precision = 2 ^ ty.precision := rfl
        omega
  · exact allows_mask x

end KnownBits

namespace ValueRange

variable {env : NameId → Int} {ty : ScalarType} {a b vr : ValueRange} {v x y : Int}

theorem knownBits_allows (proper : vr.Proper ty) (holds : vr.Holds env ty x) :
    (vr.knownBits ty).Allows ty (ty.toBits x) := by
  unfold knownBits
  split
  · next finite =>
      split
      · next lo hi ends =>
          obtain ⟨hlo, hhi⟩ := proper.constBounds?_fits ends
          exact KnownBits.between_allows hlo hhi
            (holds.within_constBounds? (Bool.and_eq_true_iff.mp finite).1 ends)
      · exact KnownBits.allows_mask x
  · exact KnownBits.allows_mask x

/-- The ends of a range whose bits are known are those of an interval. -/
theorem Holds.within_known (holds : vr.Holds env ty x) (lo hi : Int)
    (ends : (if (vr.knownBits ty).known then vr.constBounds? ty else none) = some (lo, hi)) :
    lo ≤ x ∧ x ≤ hi := by
  split at ends
  · next known =>
      refine holds.within_constBounds? ?_ ends
      unfold knownBits at known
      split at known
      · next finite => exact (Bool.and_eq_true_iff.mp finite).1
      · cases known
  · cases ends

theorem holds_finish_of_enclosed {least most : Int}
    (h : most < least ∨ least ≤ v ∧ v ≤ most) :
    (finish ty (.inside (.const least) (.const most))).Holds env ty v := by
  rcases h with empty | within
  · rw [finish_of_lt empty]
    trivial
  · exact holds_finish_inside within

/-- A word with fewer bits than one that is not negative, or than one of the same sign, has a
    value that is not greater. -/
theorem ofBits_le {low : Nat} (hx : ty.fits x = true) (le : low ≤ ty.toBits x)
    (sign : 0 ≤ x ∨ ty.signed = true ∧ ty.maxValue < low) : ty.ofBits low ≤ x := by
  have small := ty.toBits_lt x
  have bits := ScalarType.natCast_toBits_of_fits hx
  have size := ty.size_eq
  rw [ScalarType.ofBits_eq ty (by omega)]
  rw [ScalarType.fits_iff] at hx
  split at bits
  · split <;> omega
  · next negative =>
      rw [if_pos (sign.resolve_left negative)]
      omega

theorem le_ofBits {high : Nat} (hx : ty.fits x = true) (le : ty.toBits x ≤ high)
    (small : high < twoPow ty.precision) (sign : x < 0 ∨ (high : Int) ≤ ty.maxValue) :
    x ≤ ty.ofBits high := by
  have bits := ScalarType.natCast_toBits_of_fits hx
  have size := ty.size_eq
  rw [ScalarType.ofBits_eq ty small]
  rw [ScalarType.fits_iff] at hx
  unfold ScalarType.size at *
  split at bits <;> split <;> omega

theorem signed_of_neg (hx : ty.fits x = true) (negative : x < 0) : ty.signed = true := by
  cases h : ty.signed with
  | true => rfl
  | false =>
      rw [ScalarType.fits_iff, ScalarType.minValue_of_not_signed h] at hx
      omega

/-- A negative value has the sign bit set. -/
theorem testBit_sign (hx : ty.fits x = true) (negative : x < 0) :
    ty.signed = true ∧ (ty.toBits x).testBit (ty.precision - 1) = true := by
  have signed := signed_of_neg hx negative
  refine ⟨signed, ?_⟩
  have bits := ScalarType.natCast_toBits_of_fits hx
  have ends := ScalarType.ends_of_signed signed
  have half : 2 ^ (ty.precision - 1) = twoPow (ty.precision - 1) := rfl
  rw [ScalarType.fits_iff] at hx
  rw [if_neg (by omega)] at bits
  have quotient : ty.toBits x / 2 ^ (ty.precision - 1) = 1 :=
    Nat.div_eq_of_lt_le (by omega) (by omega)
  rw [Nat.testBit_eq_decide_div_mod_eq, quotient]
  rfl

theorem and_le (hx : ty.fits x = true) (hy : ty.fits y = true)
    (sign : 0 ≤ x ∨ x < 0 ∧ y < 0) : ty.ofBits (ty.toBits x &&& ty.toBits y) ≤ x := by
  refine ofBits_le hx Nat.and_le_left ?_
  rcases sign with nonneg | ⟨negative, negative'⟩
  · exact .inl nonneg
  · obtain ⟨signed, bitX⟩ := testBit_sign hx negative
    obtain ⟨-, bitY⟩ := testBit_sign hy negative'
    have both : (ty.toBits x &&& ty.toBits y).testBit (ty.precision - 1) = true := by
      rw [Nat.testBit_and, bitX, bitY]
      rfl
    have least := Nat.ge_two_pow_of_testBit both
    have ends := ScalarType.ends_of_signed signed
    have half : 2 ^ (ty.precision - 1) = twoPow (ty.precision - 1) := rfl
    exact .inr ⟨signed, by omega⟩

theorem le_or (hx : ty.fits x = true) (hy : ty.fits y = true)
    (sign : x < 0 ∨ 0 ≤ x ∧ 0 ≤ y) : x ≤ ty.ofBits (ty.toBits x ||| ty.toBits y) := by
  have small : ty.toBits x ||| ty.toBits y < twoPow ty.precision :=
    Nat.or_lt_two_pow (ty.toBits_lt x) (ty.toBits_lt y)
  refine le_ofBits hx Nat.left_le_or small ?_
  rcases sign with negative | ⟨nonneg, nonneg'⟩
  · exact .inl negative
  · refine .inr ?_
    have bitsX := ScalarType.natCast_toBits_of_fits hx
    have bitsY := ScalarType.natCast_toBits_of_fits hy
    rw [if_pos nonneg] at bitsX
    rw [if_pos nonneg'] at bitsY
    rw [ScalarType.fits_iff] at hx hy
    cases signed : ty.signed with
    | true =>
        have ends := ScalarType.ends_of_signed signed
        have half : 2 ^ (ty.precision - 1) = twoPow (ty.precision - 1) := rfl
        have below : ty.toBits x ||| ty.toBits y < 2 ^ (ty.precision - 1) :=
          Nat.or_lt_two_pow (by omega) (by omega)
        omega
    | false =>
        have ends := ScalarType.ends_of_unsigned signed
        unfold ScalarType.size at ends
        omega

/-- The upper end of a conjunction is cut only by ends that are not below the value. -/
theorem andEnds_spec (hx : ty.fits x = true) (hy : ty.fits y = true) (holdsA : a.Holds env ty x)
    (holdsB : b.Holds env ty y) (v : Int) (hv : v = ty.ofBits (ty.toBits x &&& ty.toBits y)) :
    (andEnds ty a b).2 ≤ ty.ofBits ((a.knownBits ty).may &&& (b.knownBits ty).may) ∧
      (v ≤ ty.ofBits ((a.knownBits ty).may &&& (b.knownBits ty).may) → v ≤ (andEnds ty a b).2) := by
  have left : 0 ≤ x ∨ x < 0 ∧ y < 0 → v ≤ x := fun sign => hv ▸ and_le hx hy sign
  have right : 0 ≤ y ∨ y < 0 ∧ x < 0 → v ≤ y := fun sign => by
    rw [hv, Nat.and_comm]
    exact and_le hy hx sign
  have within := holdsA.within_known
  have within' := holdsB.within_known
  unfold andEnds
  extract_lets bits0 bits1 ends0 ends1 most most' cut
  have cut_spec : ∀ (most : Int) (ends : Option (Int × Int)),
      (∀ lo hi, ends = some (lo, hi) → 0 ≤ lo → v ≤ hi) →
        cut most ends ≤ most ∧ (v ≤ most → v ≤ cut most ends) := by
    intro most ends high
    dsimp only [cut]
    split
    · next lo hi =>
        split
        · next nonneg =>
            have := high lo hi rfl nonneg
            omega
        · exact ⟨Int.le_refl _, id⟩
    · exact ⟨Int.le_refl _, id⟩
  have first : most' ≤ most ∧ (v ≤ most → v ≤ most') := by
    dsimp only [most']
    rcases hends0 : ends0 with _ | ⟨lo0, hi0⟩
    · exact ⟨Int.le_refl _, id⟩
    · rcases hends1 : ends1 with _ | ⟨lo1, hi1⟩
      · exact ⟨Int.le_refl _, id⟩
      · have := within _ _ hends0
        have := within' _ _ hends1
        dsimp only
        split <;> omega
  have second := cut_spec most' ends0 fun lo hi ends nonneg => by
    have := within _ _ ends
    omega
  have third := cut_spec (cut most' ends0) ends1 fun lo hi ends nonneg => by
    have := within' _ _ ends
    omega
  exact ⟨Int.le_trans third.1 (Int.le_trans second.1 first.1),
    fun le => third.2 (second.2 (first.2 le))⟩

theorem bitAnd_holds (ha : a.Proper ty) (hb : b.Proper ty) (hx : ty.fits x = true)
    (hy : ty.fits y = true) (holdsA : a.Holds env ty x) (holdsB : b.Holds env ty y) :
    (bitwise .bitAnd ty a b).Holds env ty (ty.wrap (Wide.and x y)) := by
  have knownA := knownBits_allows ha holdsA
  have knownB := knownBits_allows hb holdsB
  have must : (a.knownBits ty).must &&& (b.knownBits ty).must ≤ ty.toBits x &&& ty.toBits y := by
    refine Nat.le_of_testBit fun i h => ?_
    simp only [Nat.testBit_and, Bool.and_eq_true] at h ⊢
    exact ⟨knownA.must i h.1, knownB.must i h.2⟩
  have may : ty.toBits x &&& ty.toBits y ≤ (a.knownBits ty).may &&& (b.knownBits ty).may := by
    refine Nat.le_of_testBit fun i h => ?_
    simp only [Nat.testBit_and, Bool.and_eq_true] at h ⊢
    exact ⟨knownA.may i h.1, knownB.may i h.2⟩
  have enclosed := ty.ofBits_enclose must may (Nat.lt_of_le_of_lt Nat.and_le_left knownA.bound)
  obtain ⟨cut, kept⟩ := andEnds_spec hx hy holdsA holdsB _ rfl
  rw [ty.wrap_eq_ofBits, ty.toBits_and]
  exact holds_finish_of_enclosed
    (enclosed.imp (Int.lt_of_le_of_lt cut) (And.imp_right kept))

/-- The lower end of a disjunction is raised only to ends that are not above the value. -/
theorem orEnds_spec (hx : ty.fits x = true) (hy : ty.fits y = true) (holdsA : a.Holds env ty x)
    (holdsB : b.Holds env ty y) (v : Int) (hv : v = ty.ofBits (ty.toBits x ||| ty.toBits y)) :
    ty.ofBits ((a.knownBits ty).must ||| (b.knownBits ty).must) ≤ (orEnds ty a b).1 ∧
      (ty.ofBits ((a.knownBits ty).must ||| (b.knownBits ty).must) ≤ v →
        (orEnds ty a b).1 ≤ v) := by
  have left : x < 0 ∨ 0 ≤ x ∧ 0 ≤ y → x ≤ v := fun sign => hv ▸ le_or hx hy sign
  have right : y < 0 ∨ 0 ≤ y ∧ 0 ≤ x → y ≤ v := fun sign => by
    rw [hv, Nat.or_comm]
    exact le_or hy hx sign
  have within := holdsA.within_known
  have within' := holdsB.within_known
  unfold orEnds
  extract_lets bits0 bits1 ends0 ends1 least least' cut
  have cut_spec : ∀ (least : Int) (ends : Option (Int × Int)),
      (∀ lo hi, ends = some (lo, hi) → hi < 0 → lo ≤ v) →
        least ≤ cut least ends ∧ (least ≤ v → cut least ends ≤ v) := by
    intro least ends low
    dsimp only [cut]
    split
    · next lo hi =>
        split
        · next negative =>
            have := low lo hi rfl negative
            omega
        · exact ⟨Int.le_refl _, id⟩
    · exact ⟨Int.le_refl _, id⟩
  have first : least ≤ least' ∧ (least ≤ v → least' ≤ v) := by
    dsimp only [least']
    rcases hends0 : ends0 with _ | ⟨lo0, hi0⟩
    · exact ⟨Int.le_refl _, id⟩
    · rcases hends1 : ends1 with _ | ⟨lo1, hi1⟩
      · exact ⟨Int.le_refl _, id⟩
      · have := within _ _ hends0
        have := within' _ _ hends1
        dsimp only
        split <;> omega
  have second := cut_spec least' ends0 fun lo hi ends negative => by
    have := within _ _ ends
    omega
  have third := cut_spec (cut least' ends0) ends1 fun lo hi ends negative => by
    have := within' _ _ ends
    omega
  exact ⟨Int.le_trans first.1 (Int.le_trans second.1 third.1),
    fun le => third.2 (second.2 (first.2 le))⟩

theorem bitOr_holds (ha : a.Proper ty) (hb : b.Proper ty) (hx : ty.fits x = true)
    (hy : ty.fits y = true) (holdsA : a.Holds env ty x) (holdsB : b.Holds env ty y) :
    (bitwise .bitOr ty a b).Holds env ty (ty.wrap (Wide.or x y)) := by
  have knownA := knownBits_allows ha holdsA
  have knownB := knownBits_allows hb holdsB
  have must : (a.knownBits ty).must ||| (b.knownBits ty).must ≤ ty.toBits x ||| ty.toBits y := by
    refine Nat.le_of_testBit fun i h => ?_
    simp only [Nat.testBit_or, Bool.or_eq_true] at h ⊢
    exact h.imp (knownA.must i) (knownB.must i)
  have may : ty.toBits x ||| ty.toBits y ≤ (a.knownBits ty).may ||| (b.knownBits ty).may := by
    refine Nat.le_of_testBit fun i h => ?_
    simp only [Nat.testBit_or, Bool.or_eq_true] at h ⊢
    exact h.imp (knownA.may i) (knownB.may i)
  have enclosed := ty.ofBits_enclose must may (Nat.or_lt_two_pow knownA.bound knownB.bound)
  obtain ⟨cut, kept⟩ := orEnds_spec hx hy holdsA holdsB _ rfl
  rw [ty.wrap_eq_ofBits, ty.toBits_or]
  exact holds_finish_of_enclosed
    (enclosed.imp (fun empty => Int.lt_of_lt_of_le empty cut) (And.imp_left kept))

/-- A bit of an exclusive disjunction is known where it is known on both sides. -/
theorem xorEnds_enclose (knownA : (a.knownBits ty).Allows ty (ty.toBits x))
    (knownB : (b.knownBits ty).Allows ty (ty.toBits y)) : (xorEnds ty a b).2 < (xorEnds ty a b).1 ∨
      (xorEnds ty a b).1 ≤ ty.ofBits (ty.toBits x ^^^ ty.toBits y) ∧
        ty.ofBits (ty.toBits x ^^^ ty.toBits y) ≤ (xorEnds ty a b).2 := by
  unfold xorEnds
  extract_lets bits0 bits1 absent ones zeros
  have testAbsent : ∀ bits i, (absent bits).testBit i =
      (decide (i < ty.precision) != bits.testBit i) := by
    intro bits i
    rw [Nat.testBit_xor, ty.testBit_mask]
  have bit : ∀ i, (ones.testBit i = true → (ty.toBits x ^^^ ty.toBits y).testBit i = true) ∧
      ((ty.toBits x ^^^ ty.toBits y).testBit i = true → (absent zeros).testBit i = true) := by
    intro i
    have mustA := knownA.must i
    have mustB := knownB.must i
    have mayA := knownA.may i
    have mayB := knownB.may i
    have insideA := ScalarType.lt_precision_of_testBit (i := i) (ty.toBits_lt x)
    have insideB := ScalarType.lt_precision_of_testBit (i := i) (ty.toBits_lt y)
    simp only [ones, zeros, Nat.testBit_or, Nat.testBit_and, testAbsent, Nat.testBit_xor]
    grind
  refine ty.ofBits_enclose (Nat.le_of_testBit fun i => (bit i).1)
    (Nat.le_of_testBit fun i => (bit i).2) ?_
  have must : bits0.must < 2 ^ ty.precision :=
    Nat.lt_of_le_of_lt (Nat.le_of_testBit knownA.must) (ty.toBits_lt x)
  exact Nat.xor_lt_two_pow ty.mask_lt (Nat.or_lt_two_pow
    (Nat.lt_of_le_of_lt Nat.and_le_left must)
    (Nat.xor_lt_two_pow ty.mask_lt (Nat.or_lt_two_pow knownA.bound knownB.bound)))

theorem bitXor_holds (ha : a.Proper ty) (hb : b.Proper ty) (holdsA : a.Holds env ty x)
    (holdsB : b.Holds env ty y) :
    (bitwise .bitXor ty a b).Holds env ty (ty.wrap (Wide.xor x y)) := by
  have enclosed := xorEnds_enclose (knownBits_allows ha holdsA) (knownBits_allows hb holdsB)
  rw [ty.wrap_eq_ofBits, ty.toBits_xor]
  simp only [bitwise]
  split
  · exact holds_finish_of_enclosed enclosed
  · trivial

end ValueRange

end RangeFlow
