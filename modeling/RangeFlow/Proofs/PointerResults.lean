import RangeFlow.Proofs.Conversion
import RangeFlow.Proofs.Meets

/-! # Results of operators on pointers

Of pointers the operators only follow whether they are null. What they conclude is right, with one
exception: a conjunction of two pointers that are not null counts as not null, but two addresses may
have no bit in common.
-/

namespace RangeFlow

namespace ValueRange

variable {env : NameId → Int} {ty : ScalarType} {op : BinaryOp} {a b : ValueRange} {v x y : Int}

theorem isBounded_of_excludesZero (h : a.excludesZero ty = true) : a.isBounded = true := by
  have known := (Bool.and_eq_true_iff.mp h).2
  cases bounded : a.isBounded with
  | true => rfl
  | false => simp [includesZero?, bounded] at known

theorem Holds.ne_zero (sided : a.extent.Sided ty) (holds : a.Holds env ty v)
    (h : a.excludesZero ty = true) : v ≠ 0 := by
  intro zero
  rw [zero] at holds
  exact not_holds_zero sided (isBounded_of_excludesZero h) h holds

theorem Holds.ne_zero_of_isNonnull (holds : a.Holds env ty v) (h : a.isNonnull = true) : v ≠ 0 := by
  obtain ⟨extent, equiv⟩ := a
  simp only [isNonnull, Bool.and_eq_true, Bound.isZero, beq_iff_eq] at h
  obtain ⟨⟨anti, low⟩, high⟩ := h
  cases extent with
  | outside lo hi =>
      cases (show lo = .const 0 from low)
      cases (show hi = .const 0 from high)
      intro zero
      exact holds ⟨Int.le_of_eq zero.symm, Int.le_of_eq zero⟩
  | undefined | inside | varying => cases anti

/-- A range that says whether a value is zero holds the values of which this is true. -/
theorem holds_of_nullness {apart zero : Bool} (nonzero : apart = true → v ≠ 0)
    (equal : zero = true → v = 0) :
    (if apart then nonnull else if zero then null else varying).Holds env ty v := by
  split
  · next known =>
      intro within
      exact nonzero known (Int.le_antisymm within.2 within.1)
  · split
    · next known =>
        rw [equal known]
        exact ⟨Int.le_refl _, Int.le_refl _⟩
    · trivial

/-- An operator on pointers holds its result, unless it is a conjunction without a common bit. -/
theorem pointerBinary_holds (unsigned : ty.signed = false) (ha : a.extent.Sided ty)
    (hb : b.extent.Sided ty) (hx : ty.fits x = true) (hy : ty.fits y = true)
    (holdsA : a.Holds env ty x) (holdsB : b.Holds env ty y) (h : op.applyExact x y ty = some v)
    (common : op = .bitAnd → a.excludesZero ty = true → b.excludesZero ty = true → v ≠ 0) :
    (pointerBinary op ty a b).Holds env ty v := by
  have nonnegative : 0 ≤ x ∧ 0 ≤ y := by
    rw [ScalarType.fits_iff, ScalarType.minValue_of_not_signed unsigned] at hx hy
    exact ⟨hx.1, hy.1⟩
  have apartA := holdsA.ne_zero ha
  have apartB := holdsB.ne_zero hb
  have zeroA := holdsA.eq_zero_of_isNull
  have zeroB := holdsB.eq_zero_of_isNull
  cases op with
  | min | max =>
      cases h
      apply holds_of_nullness
      · intro both
        obtain ⟨first, second⟩ := Bool.and_eq_true_iff.mp both
        have := apartA first
        have := apartB second
        omega
      · intro both
        obtain ⟨first, second⟩ := Bool.and_eq_true_iff.mp both
        rw [zeroA first, zeroB second]
        rfl
  | pointerPlus =>
      rw [Wide.eq_of_check h]
      apply holds_of_nullness
      · intro either
        rcases Bool.or_eq_true_iff.mp either with first | second
        · have := apartA first
          omega
        · have := apartB second
          omega
      · intro both
        obtain ⟨first, second⟩ := Bool.and_eq_true_iff.mp both
        rw [zeroA first, zeroB second]
        rfl
  | bitAnd =>
      apply holds_of_nullness
      · intro both
        obtain ⟨first, second⟩ := Bool.and_eq_true_iff.mp both
        exact common rfl first second
      · intro either
        cases h
        rcases Bool.or_eq_true_iff.mp either with first | second
        · rw [zeroA first, Wide.zero_and]
        · rw [zeroB second, Wide.and_zero]
  | add | sub | mul | truncDiv | floorDiv | ceilDiv | roundDiv | exactDiv | truncMod | shl | shr
  | bitOr | bitXor => trivial

/-- The range of an operator on pointers holds its result on a value of each range, but for a
    conjunction of two pointers that are not null, without a common bit. A result that counts as
    null is zero, and one that counts as not null is not zero, with the same exception. -/
theorem pointer_holds_iff (ha : a.extent.Sided .ptr) (hb : b.extent.Sided .ptr)
    (hx : ScalarType.ptr.fits x = true) (hy : ScalarType.ptr.fits y = true)
    (holdsA : a.Holds env .ptr x) (holdsB : b.Holds env .ptr y)
    (h : op.applyExact x y .ptr = some v) :
    ((binary op .ptr a b).Holds env .ptr v ↔
      ¬ (op = .bitAnd ∧ a.excludesZero .ptr = true ∧ b.excludesZero .ptr = true ∧ v = 0)) ∧
    ((binary op .ptr a b).isNull = true → v = 0) ∧
    ((binary op .ptr a b).isNonnull = true → op ≠ .bitAnd → v ≠ 0) := by
  have pointer : binary op .ptr a b = pointerBinary op .ptr a b := rfl
  rw [pointer]
  by_cases missed : op = .bitAnd ∧ a.excludesZero .ptr = true ∧ b.excludesZero .ptr = true ∧ v = 0
  · obtain ⟨rfl, apartA, apartB, rfl⟩ := missed
    have answer : pointerBinary .bitAnd .ptr a b = nonnull := by
      simp [pointerBinary, apartA, apartB]
    rw [answer]
    refine ⟨?_, nofun, fun _ other => absurd rfl other⟩
    constructor
    · intro holds
      exact absurd ⟨Int.le_refl _, Int.le_refl _⟩ holds
    · intro other
      exact absurd ⟨rfl, apartA, apartB, rfl⟩ other
  · have holds : (pointerBinary op .ptr a b).Holds env .ptr v := by
      apply pointerBinary_holds rfl ha hb hx hy holdsA holdsB h
      intro conjunction apartA apartB zero
      exact missed ⟨conjunction, apartA, apartB, zero⟩
    refine ⟨iff_of_true holds missed, holds.eq_zero_of_isNull, ?_⟩
    intro known _
    exact holds.ne_zero_of_isNonnull known

/-- The conjunction of two addresses that have a bit in common. -/
theorem pointer_holds_iff_commonBit :
    BinaryOp.bitAnd.applyExact 6 3 .ptr = some 2 ∧
    (binary .bitAnd .ptr nonnull (range (.const 1) (.const 7))).isNonnull = true ∧
    (binary .bitAnd .ptr nonnull (range (.const 1) (.const 7))).Holds (fun _ => 0) .ptr 2 := by
  have sided : nonnull.extent.Sided .ptr :=
    ⟨Bound.isLower_const.mpr rfl, Bound.isUpper_const.mpr rfl⟩
  have sided' : (range (.const 1) (.const 7)).extent.Sided .ptr :=
    ⟨Bound.isLower_const.mpr rfl, Bound.isUpper_const.mpr rfl⟩
  have holds : nonnull.Holds (fun _ => 0) .ptr 6 := fun within => absurd within.2 (by decide)
  have holds' : (range (.const 1) (.const 7)).Holds (fun _ => 0) .ptr 3 := ⟨by decide, by decide⟩
  have conjunction : BinaryOp.bitAnd.applyExact 6 3 .ptr = some 2 := by decide
  have facts := pointer_holds_iff sided sided' rfl rfl holds holds' conjunction
  exact ⟨conjunction, rfl, facts.1.mpr (by simp)⟩

/-- The addresses one and two have no common bit, yet their conjunction counts as not null. -/
theorem pointerAnd_misses_null :
    nonnull.extent.Sided .ptr ∧ nonnull.Holds (fun _ => 0) .ptr 1 ∧
    nonnull.Holds (fun _ => 0) .ptr 2 ∧ BinaryOp.bitAnd.applyExact 1 2 .ptr = some 0 ∧
    (binary .bitAnd .ptr nonnull nonnull).isNonnull = true ∧
    ¬ (binary .bitAnd .ptr nonnull nonnull).Holds (fun _ => 0) .ptr 0 := by
  refine ⟨⟨Bound.isLower_const.mpr rfl, Bound.isUpper_const.mpr rfl⟩, ?_, ?_, by decide, rfl, ?_⟩
  · intro within
    exact absurd within.2 (by decide)
  · intro within
    exact absurd within.2 (by decide)
  · intro holds
    exact holds ⟨by decide, by decide⟩

end ValueRange

end RangeFlow
