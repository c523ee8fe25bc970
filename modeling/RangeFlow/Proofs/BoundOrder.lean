import Mathlib.Order.Defs.Unbundled
import RangeFlow.Proofs.Meets

/-! # The order of bounds

All comparisons of bounds decide one order: constants as numbers, infinities beyond all of them, and
offsets of one name by their offsets where their sums cannot wrap. On bounds without names it is
linear. The comparison that refuses answers about names that rest on undefined overflow, and the one
that reads infinities as ends of the type, give no other answers, as long as the constants are
values of the type: a constant beyond the end of the type lies on the wrong side of the infinity
there.
-/

namespace RangeFlow

namespace ValueOrder

theorem isLe_reverse (order : ValueOrder) : order.reverse.isLe = order.isGe := by
  cases order <;> rfl

theorem isLe_ofInts {c d : Int} : (ofInts c d).isLe = true ↔ c ≤ d := by
  unfold ofInts
  grind [isLe]

end ValueOrder

namespace Bound

variable {ty : ScalarType} {a b c : Bound}

/-- The order of bounds. -/
inductive Le (ty : ScalarType) : Bound → Bound → Prop where
  | refl (a : Bound) : Le ty a a
  | negInf {b : Bound} (plain : b.isInvariant = true) : Le ty negInf b
  | posInf {a : Bound} (plain : a.isInvariant = true) : Le ty a posInf
  | const {c d : Int} (order : c ≤ d) : Le ty (const c) (const d)
  | symbolic {n : NameId} {c d : Int} (undefined : ty.overflowUndefined = true) (order : c ≤ d) :
      Le ty (symbolic n c) (symbolic n d)

namespace Le

theorem trans (hab : Le ty a b) (hbc : Le ty b c) : Le ty a c := by
  cases hab with
  | refl => exact hbc
  | negInf plain =>
      cases hbc with
      | refl => exact .negInf plain
      | negInf plain => exact .negInf plain
      | posInf => exact .negInf rfl
      | const => exact .negInf rfl
      | symbolic => cases plain
  | posInf plain =>
      cases hbc with
      | refl | posInf => exact .posInf plain
  | const order =>
      cases hbc with
      | refl => exact .const order
      | posInf => exact .posInf rfl
      | const order' => exact .const (Int.le_trans order order')
  | symbolic undefined order =>
      cases hbc with
      | refl => exact .symbolic undefined order
      | posInf plain => cases plain
      | symbolic _ order' => exact .symbolic undefined (Int.le_trans order order')

theorem antisymm (hab : Le ty a b) (hba : Le ty b a) : a = b := by
  cases hab with
  | refl => rfl
  | negInf | posInf => cases hba <;> rfl
  | const order =>
      cases hba with
      | refl => rfl
      | const order' => rw [Int.le_antisymm order order']
  | symbolic _ order =>
      cases hba with
      | refl => rfl
      | symbolic _ order' => rw [Int.le_antisymm order order']

theorem total (ha : a.isInvariant = true) (hb : b.isInvariant = true) : Le ty a b ∨ Le ty b a := by
  cases a with
  | symbolic => cases ha
  | negInf => exact .inl (.negInf hb)
  | posInf => exact .inr (.posInf hb)
  | const c =>
      cases b with
      | symbolic => cases hb
      | negInf => exact .inr (.negInf ha)
      | posInf => exact .inl (.posInf ha)
      | const d => exact (Int.le_total c d).imp .const .const

end Le

theorem compareAssuming_self (ty : ScalarType) (a : Bound) :
    compareAssuming ty a a = pure .equal := if_pos rfl

theorem compareAssuming_const (ty : ScalarType) (c d : Int) :
    compareAssuming ty (const c) (const d) = pure (.ofInts c d) := by
  unfold compareAssuming
  split
  · next same =>
      cases same
      simp [ValueOrder.ofInts]
  · rfl

/-- Offsets of two names have no order, and neither have those of one name whose sums may wrap. -/
theorem compareAssuming_symbolic (ty : ScalarType) (n m : NameId) (c d : Int) :
    compareAssuming ty (symbolic n c) (symbolic m d) =
      if n = m ∧ c = d then pure .equal
      else if n = m ∧ ty.overflowUndefined = true then Assuming.noOverflow (.ofInts c d)
      else pure .unknown := by
  simp [compareAssuming]

/-- Exchanging the bounds reverses the answer, and the answer rests on undefined overflow either
    way. -/
theorem compareAssuming_reverse (ty : ScalarType) (a b : Bound) : compareAssuming ty b a =
    ⟨(compareAssuming ty a b).value.reverse, (compareAssuming ty a b).overflow⟩ := by
  cases a with
  | symbolic n c =>
      cases b with
      | symbolic m d =>
          rw [compareAssuming_symbolic, compareAssuming_symbolic, ← ofInts_reverse]
          simp only [eq_comm (a := m) (b := n), eq_comm (a := d) (b := c)]
          split
          · rfl
          · split <;> rfl
      | negInf | const | posInf => rfl
  | const c =>
      cases b with
      | const d =>
          rw [compareAssuming_const, compareAssuming_const, ← ofInts_reverse]
          rfl
      | negInf | symbolic | posInf => rfl
  | negInf => cases b <;> rfl
  | posInf => cases b <;> rfl

theorem le_of_isLe (h : (compareAssuming ty a b).value.isLe = true) : Le ty a b := by
  cases a with
  | symbolic n c =>
      cases b with
      | symbolic m d =>
          rw [compareAssuming_symbolic] at h
          split at h
          · next same =>
              obtain ⟨rfl, rfl⟩ := same
              exact .refl _
          · split at h
            · next ordered =>
                obtain ⟨rfl, undefined⟩ := ordered
                exact .symbolic undefined (ValueOrder.isLe_ofInts.mp h)
            · cases h
      | negInf | const | posInf => cases h
  | const c =>
      cases b with
      | const d =>
          rw [compareAssuming_const] at h
          exact .const (ValueOrder.isLe_ofInts.mp h)
      | posInf => exact .posInf rfl
      | negInf | symbolic => cases h
  | negInf =>
      cases b with
      | symbolic => cases h
      | negInf | const | posInf => exact .negInf rfl
  | posInf =>
      cases b with
      | posInf => exact .refl _
      | negInf | const | symbolic => cases h

theorem Le.isLe (h : Le ty a b) : (compareAssuming ty a b).value.isLe = true := by
  cases h with
  | refl =>
      rw [compareAssuming_self]
      rfl
  | negInf plain => cases b <;> first | rfl | cases plain
  | posInf plain => cases a <;> first | rfl | cases plain
  | const order =>
      rw [compareAssuming_const]
      exact ValueOrder.isLe_ofInts.mpr order
  | symbolic undefined order =>
      rw [compareAssuming_symbolic]
      split
      · rfl
      · rw [if_pos ⟨rfl, undefined⟩]
        exact ValueOrder.isLe_ofInts.mpr order

theorem isLe_iff : (compareAssuming ty a b).value.isLe = true ↔ Le ty a b :=
  ⟨le_of_isLe, Le.isLe⟩

/-- Without names, no answer is refused. -/
theorem compare_of_isInvariant (ha : a.isInvariant = true) (hb : b.isInvariant = true) :
    compare ty a b = (compareAssuming ty a b).value := by
  simp [compare, ha, hb]

/-- An answer that is not refused is that of the other comparison. -/
theorem value_of_compare {order : ValueOrder} (h : compare ty a b = order)
    (known : order ≠ .unknown) : (compareAssuming ty a b).value = order := by
  unfold compare at h
  dsimp only at h
  split at h
  · exact absurd h.symm known
  · exact h

theorem le_of_compare (h : (compare ty a b).isLe = true) : Le ty a b := by
  apply le_of_isLe
  rw [value_of_compare rfl]
  · exact h
  · intro refused
    rw [refused] at h
    cases h

theorem not_le_of_compare (h : compare ty a b = .greater) : ¬ Le ty a b := by
  intro order
  have le := order.isLe
  rw [value_of_compare h (by simp)] at le
  cases le

theorem isLinearOrder (ty : ScalarType) :
    IsLinearOrder {b : Bound // b.isInvariant = true}
      (fun a b => (compareAssuming ty a.val b.val).value.isLe = true) where
  refl a := isLe_iff.mpr (.refl a.val)
  trans _ _ _ hab hbc := isLe_iff.mpr ((isLe_iff.mp hab).trans (isLe_iff.mp hbc))
  antisymm _ _ hab hba := Subtype.ext ((isLe_iff.mp hab).antisymm (isLe_iff.mp hba))
  total a b := (Le.total a.property b.property).imp isLe_iff.mpr isLe_iff.mpr

/-- Bounds are never known to differ without a direction. -/
theorem compare_ne_notEqual (ty : ScalarType) (a b : Bound) : compare ty a b ≠ .notEqual := by
  by_cases symbolic : a.isSymbolic = true ∨ b.isSymbolic = true
  · by_cases same : a = b
    · simp [same]
    · simp [compare_of_isSymbolic same symbolic]
  · have plain : a.isInvariant = true ∧ b.isInvariant = true := by
      simpa [isInvariant] using symbolic
    intro differ
    rw [compare_of_isInvariant plain.1 plain.2] at differ
    obtain order | order : Le ty a b ∨ Le ty b a := Le.total plain.1 plain.2
    · have le := order.isLe
      rw [differ] at le
      cases le
    · have le := order.isLe
      rw [compareAssuming_reverse, differ] at le
      cases le

/-- Reading infinities as the ends of the type gives the same answers about values of the type. -/
theorem less?_eq (ha : a.Fits ty) (hb : b.Fits ty) : less? ty a b =
    match compare ty a b with
    | .less => some true
    | .equal | .greater => some false
    | .notEqual | .unknown => none := by
  have apart := ty.minValue_lt_maxValue
  cases a with
  | symbolic => rfl
  | negInf =>
      cases b with
      | symbolic => rfl
      | negInf => simp [less?, concrete?]
      | const d => simp [less?, concrete?]
      | posInf => simp [less?, concrete?]
  | posInf =>
      cases b with
      | symbolic => rfl
      | negInf =>
          have crossed : ¬ ty.maxValue < ty.minValue := by omega
          simp [less?, concrete?, crossed]
      | const d =>
          have within := ScalarType.fits_iff.mp hb
          have crossed : ¬ ty.maxValue < d := by omega
          simp [less?, concrete?, crossed]
      | posInf => simp [less?, concrete?]
  | const c =>
      have within : ¬ c < ty.minValue := Int.not_lt.mpr (ScalarType.fits_iff.mp ha).1
      cases b with
      | symbolic => rfl
      | negInf => simp [less?, concrete?, within]
      | posInf => simp [less?, concrete?]
      | const d =>
          simp only [less?, concrete?, compare_const, ValueOrder.ofInts]
          grind

theorem less?_eq_true_iff (ha : a.Fits ty) (hb : b.Fits ty) :
    less? ty a b = some true ↔ compare ty a b = .less := by
  rw [less?_eq ha hb]
  cases compare ty a b <;> simp

theorem less?_eq_false_iff (ha : a.Fits ty) (hb : b.Fits ty) :
    less? ty a b = some false ↔ (compare ty b a).isLe = true := by
  rw [less?_eq ha hb, ← compare_reverse ty a b, ValueOrder.isLe_reverse]
  cases compare ty a b <;> simp [ValueOrder.isGe]

theorem less?_eq_none_iff (ha : a.Fits ty) (hb : b.Fits ty) :
    less? ty a b = none ↔ compare ty a b = .unknown := by
  have directed := compare_ne_notEqual ty a b
  rw [less?_eq ha hb]
  cases h : compare ty a b <;> simp_all

theorem inside?_true_order {lo hi : Bound} (hb : b.Fits ty) (hlo : lo.Fits ty) (hhi : hi.Fits ty)
    (h : inside? ty b lo hi = some true) :
    (compare ty lo b).isLe = true ∧ (compare ty b hi).isLe = true := by
  obtain ⟨above, below⟩ := inside?_eq_true h
  exact ⟨(less?_eq_false_iff hb hlo).mp above, (less?_eq_false_iff hhi hb).mp below⟩

theorem inside?_false_order {lo hi : Bound} (hb : b.Fits ty) (hlo : lo.Fits ty) (hhi : hi.Fits ty)
    (h : inside? ty b lo hi = some false) :
    compare ty lo b = .greater ∨ compare ty b hi = .greater := by
  rcases inside?_eq_false h with under | beyond
  · left
    rw [← compare_reverse ty b lo, (less?_eq_true_iff hb hlo).mp under]
    rfl
  · right
    rw [← compare_reverse ty hi b, (less?_eq_true_iff hhi hb).mp beyond]
    rfl

/-- Where it is known whether a bound lies between two others, it does if and only if they are
    ordered so, and known to be. -/
theorem inside?_eq {lo hi : Bound} {answer : Bool} (hb : b.Fits ty) (hlo : lo.Fits ty)
    (hhi : hi.Fits ty) (h : inside? ty b lo hi = some answer) :
    answer = ((compare ty lo b).isLe && (compare ty b hi).isLe) ∧
      (answer = true ↔ Le ty lo b ∧ Le ty b hi) := by
  cases answer with
  | true =>
      obtain ⟨above, below⟩ := inside?_true_order hb hlo hhi h
      exact ⟨by simp [above, below], by simp [le_of_compare above, le_of_compare below]⟩
  | false =>
      rcases inside?_false_order hb hlo hhi h with under | beyond
      · exact ⟨by simp [under, ValueOrder.isLe], by simp [not_le_of_compare under]⟩
      · exact ⟨by simp [beyond, ValueOrder.isLe], by simp [not_le_of_compare beyond]⟩

/-- All comparisons of bounds decide one order. Exchanging the bounds reverses the answer; the order
    is transitive, and linear on bounds without names, where the refusing comparison refuses
    nothing. If constants are values of the type, the fast comparison and the test for a bound
    between two others give the same answers. -/
theorem comparisons_consistent (ty : ScalarType) :
    (∀ a b, (compareAssuming ty b a).value = (compareAssuming ty a b).value.reverse ∧
      compare ty b a = (compare ty a b).reverse) ∧
    (∀ a b c, (compareAssuming ty a b).value.isLe = true →
      (compareAssuming ty b c).value.isLe = true → (compareAssuming ty a c).value.isLe = true) ∧
    IsLinearOrder {b : Bound // b.isInvariant = true}
      (fun a b => (compareAssuming ty a.val b.val).value.isLe = true) ∧
    (∀ a b, a.isInvariant = true → b.isInvariant = true →
      compare ty a b = (compareAssuming ty a b).value) ∧
    (∀ a b, a.Fits ty → b.Fits ty → (less? ty a b = some true ↔ compare ty a b = .less) ∧
      (less? ty a b = none ↔ compare ty a b = .unknown)) ∧
    ∀ a b c, a.Fits ty → b.Fits ty → c.Fits ty → ∀ answer, inside? ty a b c = some answer →
      answer = ((compare ty b a).isLe && (compare ty a c).isLe) ∧
      answer = ((compareAssuming ty b a).value.isLe && (compareAssuming ty a c).value.isLe) := by
  refine ⟨fun a b => ⟨?_, (compare_reverse ty a b).symm⟩, fun a b c hab hbc => ?_, isLinearOrder ty,
    fun a b => compare_of_isInvariant, fun a b ha hb => ?_, fun a b c ha hb hc answer h => ?_⟩
  · rw [compareAssuming_reverse ty a b]
  · exact ((le_of_isLe hab).trans (le_of_isLe hbc)).isLe
  · exact ⟨less?_eq_true_iff ha hb, less?_eq_none_iff ha hb⟩
  · obtain ⟨known, ordered⟩ := inside?_eq ha hb hc h
    refine ⟨known, ?_⟩
    rw [Bool.eq_iff_iff, Bool.and_eq_true_iff, isLe_iff, isLe_iff]
    exact ordered

/-- Offsets of one name are ordered through a third one, a constant lies below the infinity of its
    type, and zero lies between two infinities. -/
theorem comparisons_consistent_eight :
    let i8 := ScalarType.int ⟨8, eight_bits⟩ .signed
    (compareAssuming i8 (symbolic 0 (-1)) (symbolic 0 2)).value.isLe = true ∧
      compare i8 (const 127) posInf = .less ∧ (compare i8 negInf (const 0)).isLe = true := by
  intro i8
  obtain ⟨-, chain, -, -, fast, between⟩ := comparisons_consistent i8
  refine ⟨chain _ (symbolic 0 0) _ rfl rfl, (fast (const 127) posInf rfl trivial).1.mp rfl, ?_⟩
  have zero := (between (const 0) negInf posInf rfl trivial trivial true rfl).1
  exact (Bool.and_eq_true_iff.mp zero.symm).1

end Bound

end RangeFlow
