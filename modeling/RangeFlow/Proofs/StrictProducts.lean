import Mathlib.Data.Nat.Prime.Basic
import RangeFlow.Proofs.StrictBits

/-! # The distance of wrapping products

The products of the ends of two intervals are checked, but not the distance of the least from the
greatest one. In a signed type the products are too small for it to leave its word. In an unsigned
type recentring leaves the ends of an interval on one side of zero, so all products are on one side
of zero as well. The distance could reach beyond the word only if a product were the least number of
the word: a power of two whose factors would be powers of two, one of them beyond the type.
-/

namespace RangeFlow.Strict

open ValueRange (Ends)

/-- Both ends have the property. -/
def Both (P : Int → Prop) (ends : Int × Int) : Prop := P ends.1 ∧ P ends.2

/-- Where the ends of an interval lie once it is recentred. -/
inductive Placed : Bool → Int × Int → Prop where
  | signed {ends : Int × Int} (h : Both (fun x => -(2 ^ 63) ≤ x ∧ x ≤ 2 ^ 63 - 1) ends) :
      Placed true ends
  | positive {ends : Int × Int} (h : Both (fun x => 0 ≤ x ∧ x < 2 ^ 64) ends) : Placed false ends
  | negative {ends : Int × Int} (h : Both (fun x => -(2 ^ 64) < x ∧ x < 0) ends) : Placed false ends

variable {ty : ScalarType} {a b vr : ValueRange} {x y : Int} {ends ends0 ends1 : Int × Int}

theorem placed_recentre (h : Both (ty.fits · = true) ends) :
    Placed ty.signed (ValueRange.recentre ty ends) := by
  obtain ⟨first, last⟩ := h
  have bounds := ScalarType.fits_iff.mp first
  have bounds' := ScalarType.fits_iff.mp last
  have size := ValueRange.size_le ty
  cases signed : ty.signed with
  | true =>
      have limits := ScalarType.ends_of_signed signed
      have same : ValueRange.recentre ty ends = ends := by simp [ValueRange.recentre, signed]
      rw [same]
      exact .signed ⟨⟨by omega, by omega⟩, by omega, by omega⟩
  | false =>
      have limits := ScalarType.ends_of_unsigned signed
      simp only [ValueRange.recentre, signed, Bool.not_false, Bool.true_and, decide_eq_true_eq]
      split
      · exact .negative ⟨⟨by omega, by omega⟩, by omega, by omega⟩
      · exact .positive ⟨⟨by omega, by omega⟩, by omega, by omega⟩

theorem recentre_eq (ty : ScalarType) (ends : Int × Int) (h : Both Near ends) :
    recentre ty ends = pure (ValueRange.recentre ty ends) := by
  simp only [recentre, ValueRange.recentre, size_eq, add_eq h.1 h.2, sub_eq h.1 ty.near_size,
    sub_eq h.2 ty.near_size, pure_bind]
  cases ty.signed with
  | true => rfl
  | false => simp [apply_ite (pure : Int × Int → Strict _)]

/-- No two magnitudes below `2 ^ 64` have the product `2 ^ 127`: they would be powers of two. -/
theorem mul_ne_least (hx : x.natAbs < 2 ^ 64) (hy : y.natAbs < 2 ^ 64) : x * y ≠ -(2 ^ 127) := by
  intro least
  have magnitude : x.natAbs * y.natAbs = 2 ^ 127 := by
    rw [← Int.natAbs_mul, least]
    rfl
  obtain ⟨i, -, first⟩ := (Nat.dvd_prime_pow Nat.prime_two).mp ⟨_, magnitude.symm⟩
  obtain ⟨j, -, second⟩ :=
    (Nat.dvd_prime_pow Nat.prime_two).mp ⟨_, (Nat.mul_comm .. ▸ magnitude).symm⟩
  rw [first] at hx magnitude
  rw [second, ← Nat.pow_add] at magnitude
  rw [second] at hy
  have low := (Nat.pow_lt_pow_iff_right (by decide)).mp hx
  have high := (Nat.pow_lt_pow_iff_right (by decide)).mp hy
  have total := Nat.pow_right_injective (le_refl 2) magnitude
  omega

theorem mul_within {m : Int} (hx : -m ≤ x ∧ x ≤ m - 1) (hy : -m ≤ y ∧ y ≤ m - 1) :
    -(m * (m - 1)) ≤ x * y ∧ x * y ≤ m * m := by
  constructor
  · rcases Int.le_total 0 x with h | h
    · nlinarith
    · rcases Int.le_total 0 y with h' | h'
      · nlinarith
      · nlinarith
  · rcases Int.le_total 0 x with h | h <;> nlinarith

theorem Both.of_mem {P : Int → Prop} (h : Both P ends) (hx : x = ends.1 ∨ x = ends.2) : P x := by
  rcases hx with rfl | rfl
  · exact h.1
  · exact h.2

/-- The products of recentred ends that fit a word lie between two numbers less than a word
    apart. -/
theorem exists_close {s : Bool} (h0 : Placed s ends0) (h1 : Placed s ends1) :
    ∃ low high : Int, high - low < 2 ^ 127 ∧
      ∀ x y, (x = ends0.1 ∨ x = ends0.2) → (y = ends1.1 ∨ y = ends1.2) →
        -(2 ^ 127) ≤ x * y ∧ x * y < 2 ^ 127 → low ≤ x * y ∧ x * y ≤ high := by
  cases h0 with
  | signed h0 =>
      cases h1 with
      | signed h1 =>
          refine ⟨-(2 ^ 63 * (2 ^ 63 - 1)), 2 ^ 63 * 2 ^ 63, by norm_num, fun x y hx hy fits => ?_⟩
          exact mul_within (h0.of_mem hx) (h1.of_mem hy)
  | positive h0 =>
      cases h1 with
      | positive h1 =>
          refine ⟨0, 2 ^ 127 - 1, by omega, fun x y hx hy fits => ?_⟩
          have sign := Int.mul_nonneg (h0.of_mem hx).1 (h1.of_mem hy).1
          exact ⟨sign, by omega⟩
      | negative h1 =>
          refine ⟨-(2 ^ 127) + 1, 0, by omega, fun x y hx hy fits => ?_⟩
          have left := h0.of_mem hx
          have right := h1.of_mem hy
          have sign := Int.mul_nonpos_of_nonneg_of_nonpos left.1 right.2.le
          have least := mul_ne_least (x := x) (y := y) (by omega) (by omega)
          omega
  | negative h0 =>
      cases h1 with
      | positive h1 =>
          refine ⟨-(2 ^ 127) + 1, 0, by omega, fun x y hx hy fits => ?_⟩
          have left := h0.of_mem hx
          have right := h1.of_mem hy
          have sign := Int.mul_nonpos_of_nonpos_of_nonneg left.2.le right.1
          have least := mul_ne_least (x := x) (y := y) (by omega) (by omega)
          omega
      | negative h1 =>
          refine ⟨0, 2 ^ 127 - 1, by omega, fun x y hx hy fits => ?_⟩
          have sign := Int.mul_nonneg_of_nonpos_of_nonpos (h0.of_mem hx).2.le (h1.of_mem hy).2.le
          exact ⟨sign, by omega⟩

theorem fits_of_mul? {p : Int} (h : Wide.mul? x y = some p) :
    -(2 ^ 127) ≤ x * y ∧ x * y < 2 ^ 127 := by
  have least : Wide.least = -(2 ^ 127 : Int) := rfl
  have greatest : Wide.greatest = (2 ^ 127 : Int) - 1 := rfl
  unfold Wide.mul? Wide.check Wide.fits at h
  grind

theorem fits_of_endProducts? {products : List Int}
    (found : ValueRange.endProducts? ends0 ends1 = some products) :
    ∀ x y, (x = ends0.1 ∨ x = ends0.2) → (y = ends1.1 ∨ y = ends1.2) →
      -(2 ^ 127) ≤ x * y ∧ x * y < 2 ^ 127 := by
  simp only [ValueRange.endProducts?, List.mapM_cons, id, Option.bind_eq_bind,
    Option.bind_eq_some_iff] at found
  obtain ⟨p, hp, _, ⟨q, hq, _, ⟨r, hr, _, ⟨s, hs, -⟩, -⟩, -⟩, -⟩ := found
  rintro x y (rfl | rfl) (rfl | rfl)
  · exact fits_of_mul? hp
  · exact fits_of_mul? hq
  · exact fits_of_mul? hr
  · exact fits_of_mul? hs

/-- The distance of the products of recentred ends is a word. -/
theorem distance_eq {s : Bool} {products : List Int} (h0 : Placed s ends0) (h1 : Placed s ends1)
    (found : ValueRange.endProducts? ends0 ends1 = some products) :
    sub (products.foldl Max.max Wide.least) (products.foldl Min.min Wide.greatest) =
      pure (products.foldl Max.max Wide.least - products.foldl Min.min Wide.greatest) := by
  obtain ⟨low, high, close, between⟩ := exists_close h0 h1
  have fits := fits_of_endProducts? found
  have within := fun x y hx hy => between x y hx hy (fits x y hx hy)
  have p := within _ _ (.inl rfl) (.inl rfl)
  have q := within _ _ (.inl rfl) (.inr rfl)
  have r := within _ _ (.inr rfl) (.inl rfl)
  have s := within _ _ (.inr rfl) (.inr rfl)
  have p' := fits _ _ (.inl rfl) (.inl rfl)
  have q' := fits _ _ (.inl rfl) (.inr rfl)
  have r' := fits _ _ (.inr rfl) (.inl rfl)
  have s' := fits _ _ (.inr rfl) (.inr rfl)
  have least : Wide.least = -(2 ^ 127 : Int) := rfl
  have greatest : Wide.greatest = (2 ^ 127 : Int) - 1 := rfl
  rw [ValueRange.endProducts?_eq_some found]
  simp only [List.foldl_cons, List.foldl_nil]
  refine signed_eq ?_ ?_
  · omega
  · omega

theorem wrappingProduct_eq (h0 : Both (ty.fits · = true) ends0)
    (h1 : Both (ty.fits · = true) ends1) :
    wrappingProduct ty ends0 ends1 = pure (ValueRange.wrappingProduct ty ends0 ends1) := by
  have near (x : Int) (h : ty.fits x = true) : Near x := ScalarType.near_of_fits h
  have centred0 := recentre_eq ty ends0 ⟨near _ h0.1, near _ h0.2⟩
  have centred1 := recentre_eq ty ends1 ⟨near _ h1.1, near _ h1.2⟩
  simp only [wrappingProduct, ValueRange.wrappingProduct, centred0, centred1, pure_bind]
  cases found : ValueRange.endProducts? (ValueRange.recentre ty ends0)
      (ValueRange.recentre ty ends1) with
  | none => rfl
  | some products =>
      have wrapped (x : Int) : (Bound.const (ty.wrap x)).Satisfies Near := near _ (ty.wrap_fits x)
      have distance := distance_eq (placed_recentre h0) (placed_recentre h1) found
      simp only [size_eq, sub_eq ty.near_size near_one, distance, wrap_eq, pure_bind,
        apply_ite (pure : ValueRange → Strict _)]
      rw [canonical_inside_eq (wrapped _) (wrapped _)]

/-- Beyond the type the distance may leave its word, although all products are in it. -/
example : wrappingProduct (.int ⟨64, by decide⟩ .signedWrapping) (-1, 1) (2 ^ 126, 2 ^ 126) =
    .error (.signed (2 ^ 127)) := rfl

theorem product_eq (ha : a.Ends (ty.fits · = true)) (hb : b.Ends (ty.fits · = true)) :
    product ty a b = pure (ValueRange.product ty a b) := by
  have least := Extent.fits_minValue ty
  have greatest := Extent.fits_maxValue ty
  unfold product ValueRange.product
  rw [crossProducts_eq .mul (ha.mono fun _ => ScalarType.near_of_fits)]
  cases ty.wraps && a.isRange && b.isRange with
  | false => exact (apply_ite pure ..).symm
  | true =>
      cases first : a.constBounds? ty with
      | none => exact (apply_ite pure ..).symm
      | some ends0 =>
          cases second : b.constBounds? ty with
          | none => exact (apply_ite pure ..).symm
          | some ends1 =>
              exact wrappingProduct_eq (ha.constBounds? least greatest first)
                (hb.constBounds? least greatest second)

theorem shiftsFit_eq (h : Both Near ends0) (ends1 : Int × Int) :
    shiftsFit ty ends0 ends1 = pure (ValueRange.shiftsFit ty ends0 ends1) := by
  simp only [shiftsFit, ValueRange.shiftsFit, List.allM, List.all_cons, List.all_nil,
    applyExact_eq .shl ty h.1, applyExact_eq .shl ty h.2, pure_bind]
  grind

theorem shift_eq {left : Bool} (near : a.Ends Near)
    (fits : left = true → a.Ends (ty.fits · = true)) :
    shift left ty a b = pure (ValueRange.shift left ty a b) := by
  unfold shift ValueRange.shift
  cases b.isRange && !b.usesInfinity with
  | false => rfl
  | true =>
      cases amounts : b.constBounds? ty with
      | none => rfl
      | some ends1 =>
          obtain ⟨lo1, hi1⟩ := ends1
          simp only [crossProducts_eq .shr near, crossProducts_eq .shl near]
          split
          · rfl
          · next inside =>
              have amount : ((lo1.toNat : Nat) : Int) = lo1 := Int.toNat_of_nonneg (by omega)
              have small := ty.precision_le
              cases left with
              | false => rfl
              | true =>
                have moved : a.Ends (ty.wrapping.fits · = true) :=
                  (fits rfl).mono fun x within => (ty.fits_wrapping x).trans within
                simp only [Bool.not_true, Bool.false_eq_true, if_false]
                split
                · rw [← amount, shl_one (by omega), pure_bind, wrap_eq, pure_bind,
                    Int.toNat_natCast]
                  exact product_eq moved (ValueRange.ends_singleton (ty.wrapping.wrap_fits _))
                · cases a.isRange && !a.usesInfinity with
                  | false => rfl
                  | true =>
                      cases ends : a.constBounds? ty with
                      | none => rfl
                      | some ends0 =>
                          simp only [shiftsFit_eq (near.near ends), pure_bind]
                          exact (apply_ite pure ..).symm

end RangeFlow.Strict
