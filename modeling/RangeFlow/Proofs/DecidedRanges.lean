import RangeFlow.Proofs.Intervals

/-! # Decided comparisons of ranges are right

A comparison of ranges looks at the order of an end on one side and an end or a bound on the other.
What this order says about a number above the first and a number below the second is stated once,
with infinities beyond the ends of the type; each way to compare follows from it.
-/

namespace RangeFlow

namespace Assuming

variable {α β : Type}

@[simp] theorem pure_value (a : α) : (pure a : Assuming α).value = a := rfl

@[simp] theorem bind_value (a : Assuming α) (f : α → Assuming β) :
    (a >>= f).value = (f a.value).value := rfl

@[simp] theorem both_value (a b : Assuming Bool) : (both a b).value = (a.value && b.value) := by
  unfold both
  cases h : a.value <;> simp [h]

@[simp] theorem either_value (a b : Assuming Bool) :
    (either a b).value = (a.value || b.value) := by
  unfold either
  cases h : a.value <;> simp [h]

/-- The answer, if there is one, is the truth. -/
def Agrees (truth : Bool) (decided : Assuming (Option Bool)) : Prop :=
  ∀ answer, decided.value = some answer → answer = truth

end Assuming

theorem CmpOp.eval_of_ne {op : CmpOp} {x y : Int} (equality : op.isEquality = true)
    (differ : x ≠ y) : op.eval x y = (op == .ne) := by
  cases op with
  | eq | ne => simp [CmpOp.eval, differ]
  | lt | le | gt | ge => cases equality

namespace Bound

variable {env : NameId → Int} {ty : ScalarType} {a b : Bound} {x y : Int}

/-- The number is what the bound stands for; an infinity stands for what is beyond the type. -/
def Denotes (env : NameId → Int) (ty : ScalarType) : Bound → Int → Prop
  | negInf, y => y < ty.minValue
  | const c, y => y = c
  | symbolic n offset, y => y = env n + offset
  | posInf, y => ty.maxValue < y

/-- The bound is not above the number. -/
def Starts (env : NameId → Int) (ty : ScalarType) : Bound → Int → Prop
  | negInf, _ => True
  | const c, y => c ≤ y
  | symbolic n offset, y => env n + offset ≤ y
  | posInf, y => ty.maxValue < y

/-- The bound is not below the number. -/
def Stops (env : NameId → Int) (ty : ScalarType) : Bound → Int → Prop
  | negInf, y => y < ty.minValue
  | const c, y => y ≤ c
  | symbolic n offset, y => y ≤ env n + offset
  | posInf, _ => True

theorem Denotes.starts (h : a.Denotes env ty y) : a.Starts env ty y := by
  cases a with
  | negInf => trivial
  | const | symbolic => exact Int.le_of_eq (Eq.symm h)
  | posInf => exact h

theorem Denotes.stops (h : a.Denotes env ty y) : a.Stops env ty y := by
  cases a with
  | negInf => exact h
  | const | symbolic => exact Int.le_of_eq h
  | posInf => trivial

theorem IsLower.starts (low : a.IsLower ty) (h : a.reading env ty ≤ y) : a.Starts env ty y := by
  cases a with
  | negInf => trivial
  | const | symbolic => exact h
  | posInf => exact absurd rfl low.2

theorem IsUpper.stops (high : a.IsUpper ty) (h : y ≤ a.reading env ty) : a.Stops env ty y := by
  cases a with
  | negInf => exact absurd rfl high.2
  | const | symbolic => exact h
  | posInf => trivial

/-- What the order of two bounds can rest on. -/
inductive Compared (ty : ScalarType) : Bound → Bound → ValueOrder → Prop where
  | same (a : Bound) : Compared ty a a .equal
  | consts {c d : Int} {order : ValueOrder} (numbers : .ofInts c d = order) :
      Compared ty (const c) (const d) order
  | offsets {n : NameId} {c d : Int} {order : ValueOrder} (noWrap : ty.overflowUndefined = true)
      (numbers : .ofInts c d = order) : Compared ty (symbolic n c) (symbolic n d) order
  | fromNegInf {b : Bound} (number : b.isSymbolic = false) : Compared ty negInf b .less
  | toPosInf {a : Bound} (number : a.isSymbolic = false) : Compared ty a posInf .less
  | fromPosInf {b : Bound} (number : b.isSymbolic = false) : Compared ty posInf b .greater
  | toNegInf {a : Bound} (number : a.isSymbolic = false) : Compared ty a negInf .greater
  | unknown (a b : Bound) : Compared ty a b .unknown

theorem compared_compareAssuming (ty : ScalarType) (a b : Bound) :
    Compared ty a b (compareAssuming ty a b).value := by
  by_cases same : a = b
  · subst same
    simp only [compareAssuming, if_true, Assuming.pure_value]
    exact .same a
  · simp only [compareAssuming, if_neg same]
    cases a with
    | negInf =>
        cases b with
        | negInf => exact absurd rfl same
        | const | posInf => exact .fromNegInf rfl
        | symbolic => exact .unknown ..
    | posInf =>
        cases b with
        | posInf => exact absurd rfl same
        | const | negInf => exact .fromPosInf rfl
        | symbolic => exact .unknown ..
    | const c =>
        cases b with
        | const d => exact .consts rfl
        | negInf => exact .toNegInf rfl
        | posInf => exact .toPosInf rfl
        | symbolic => exact .unknown ..
    | symbolic n c =>
        cases b with
        | symbolic m d =>
            dsimp only
            split
            · next known =>
                obtain ⟨rfl, noWrap⟩ : n = m ∧ ty.overflowUndefined = true := by simpa using known
                exact .offsets noWrap rfl
            · exact .unknown ..
        | negInf | const | posInf => exact .unknown ..

theorem compared_of_eq {order : ValueOrder} (h : (compareAssuming ty a b).value = order) :
    Compared ty a b order :=
  h ▸ compared_compareAssuming ty a b

namespace Compared

/-- Bounds are equal in the order only if they are the same. -/
theorem eq (h : Compared ty a b .equal) : a = b := by
  cases h with
  | same => rfl
  | consts numbers => rw [ofInts_eq_equal.mp numbers]
  | offsets noWrap numbers => rw [ofInts_eq_equal.mp numbers]

theorem ne_notEqual (h : Compared ty a b .notEqual) : False := by
  cases h with
  | consts numbers | offsets _ numbers =>
      unfold ValueOrder.ofInts at numbers
      grind

theorem greater_of_less (h : Compared ty a b .less) : Compared ty b a .greater := by
  cases h with
  | consts numbers => exact .consts (ofInts_eq_greater.mpr (ofInts_eq_less.mp numbers))
  | offsets noWrap numbers =>
      exact .offsets noWrap (ofInts_eq_greater.mpr (ofInts_eq_less.mp numbers))
  | fromNegInf number => exact .toNegInf number
  | toPosInf number => exact .fromPosInf number

end Compared

theorem IsUpper.reading_le (high : a.IsUpper ty) (number : a.isSymbolic = false) :
    a.reading env ty ≤ ty.maxValue := by
  cases a with
  | negInf => exact absurd rfl high.2
  | const c => exact (ScalarType.fits_iff.mp high.1).2
  | symbolic => cases number
  | posInf => exact Int.le_refl _

theorem IsLower.le_reading (low : a.IsLower ty) (number : a.isSymbolic = false) :
    ty.minValue ≤ a.reading env ty := by
  cases a with
  | negInf => exact Int.le_refl _
  | const c => exact (ScalarType.fits_iff.mp low.1).1
  | symbolic => cases number
  | posInf => exact absurd rfl low.2

section

variable (high : a.IsUpper ty) (limit : x ≤ a.reading env ty) (starts : b.Starts env ty y)

include high limit starts

/-- What is not above an upper end is below all that starts above this end. -/
theorem IsUpper.lt_of_less (order : Compared ty a b .less) : x < y := by
  cases order with
  | consts numbers | offsets _ numbers =>
      have := ofInts_eq_less.mp numbers
      simp only [reading, Starts] at limit starts
      omega
  | fromNegInf => exact absurd rfl high.2
  | toPosInf number =>
      exact Int.lt_of_le_of_lt (Int.le_trans limit (high.reading_le number)) starts

theorem IsUpper.le_of_isLe {order : ValueOrder} (compared : Compared ty a b order)
    (h : order.isLe = true) : x ≤ y := by
  cases order with
  | less => exact Int.le_of_lt (high.lt_of_less limit starts compared)
  | equal =>
      cases compared.eq
      cases a with
      | negInf => exact absurd rfl high.2
      | const | symbolic => exact Int.le_trans limit starts
      | posInf => exact Int.le_of_lt (Int.lt_of_le_of_lt limit starts)
  | greater | notEqual | unknown => cases h

end

section

variable (low : a.IsLower ty) (limit : a.reading env ty ≤ x) (stops : b.Stops env ty y)

include low limit stops

/-- What is not below a lower end is above all that stops below this end. -/
theorem IsLower.lt_of_greater (order : Compared ty a b .greater) : y < x := by
  cases order with
  | consts numbers | offsets _ numbers =>
      have := ofInts_eq_greater.mp numbers
      simp only [reading, Stops] at limit stops
      omega
  | fromPosInf => exact absurd rfl low.2
  | toNegInf number =>
      exact Int.lt_of_lt_of_le stops (Int.le_trans (low.le_reading number) limit)

theorem IsLower.le_of_isGe {order : ValueOrder} (compared : Compared ty a b order)
    (h : order.isGe = true) : y ≤ x := by
  cases order with
  | greater => exact Int.le_of_lt (low.lt_of_greater limit stops compared)
  | equal =>
      cases compared.eq
      cases a with
      | posInf => exact absurd rfl low.2
      | const | symbolic => exact Int.le_trans stops limit
      | negInf => exact Int.le_of_lt (Int.lt_of_lt_of_le stops limit)
  | less | notEqual | unknown => cases h

end

theorem less?_negInf_const (c : Int) : less? ty negInf (const c) = some true := by
  simp only [less?, concrete?]
  split
  · rfl
  · rfl

theorem less?_const_posInf (c : Int) : less? ty (const c) posInf = some true := by
  simp only [less?, concrete?]
  split
  · rfl
  · rfl

theorem eq_of_not_less? {n : NameId} {offset : Int}
    (h : less? ty a (symbolic n offset) = some false) : a = symbolic n offset := by
  by_cases same : a = symbolic n offset
  · exact same
  · have unknown : compare ty a (symbolic n offset) = .unknown :=
      compare_of_isSymbolic same (.inr rfl)
    cases a <;> simp [less?, concrete?, unknown] at h

end Bound

namespace ValueRange

variable {env : NameId → Int} {ty : ScalarType} {a b : ValueRange} {bound : Bound} {x y : Int}

/-- The number lies between the ends of the range, and these can be the ends of an interval. -/
structure Spans (env : NameId → Int) (ty : ScalarType) (vr : ValueRange) (x : Int) : Prop where
  lower : vr.min.IsLower ty
  upper : vr.max.IsUpper ty
  least : vr.min.reading env ty ≤ x
  greatest : x ≤ vr.max.reading env ty

theorem Spans.starts (h : a.Spans env ty x) : a.min.Starts env ty x := h.lower.starts h.least

theorem Spans.stops (h : a.Spans env ty x) : a.max.Stops env ty x := h.upper.stops h.greatest

/-- An interval whose ends are equal has one value, and this value is what its ends denote. -/
theorem Spans.single (h : a.Spans env ty x) (same : Bound.Compared ty a.min a.max .equal) :
    a.max = a.min ∧ ∀ y, a.min.Denotes env ty y ↔ x = y := by
  obtain ⟨lower, upper, least, greatest⟩ := h
  rw [← same.eq] at upper greatest ⊢
  refine ⟨rfl, fun y => ?_⟩
  cases ends : a.min with
  | negInf => exact absurd ends upper.2
  | posInf => exact absurd ends lower.2
  | const | symbolic =>
      rw [ends] at least greatest
      simp only [Bound.reading] at least greatest
      simp only [Bound.Denotes]
      omega

/-- The one value of an interval against what a bound denotes. -/
theorem Spans.single_ne (h : a.Spans env ty x) (same : Bound.Compared ty a.min a.max .equal)
    (denotes : bound.Denotes env ty y) {order : ValueOrder}
    (compared : Bound.Compared ty a.min bound order) (differ : order ≠ .equal)
    (known : order ≠ .unknown) : x ≠ y := by
  have upper : a.min.IsUpper ty := same.eq ▸ h.upper
  have greatest : x ≤ a.min.reading env ty := same.eq ▸ h.greatest
  cases order with
  | less => exact Int.ne_of_lt (upper.lt_of_less greatest denotes.starts compared)
  | equal => exact absurd rfl differ
  | greater => exact Int.ne_of_gt (h.lower.lt_of_greater h.least denotes.stops compared)
  | notEqual => exact compared.ne_notEqual.elim
  | unknown => exact absurd rfl known

@[simp] theorem ordered_value (order : ValueOrder) (a b : Bound) :
    (ordered ty order a b).value = ((Bound.compareAssuming ty a b).value == order) := rfl

/-- An order is decided from four facts about the two numbers. -/
theorem decided_below {strict lt le ge gt answer : Bool} (hlt : lt = true → x < y)
    (hle : le = true → x ≤ y) (hge : ge = true → y ≤ x) (hgt : gt = true → y < x)
    (h : (if ((strict && lt) || (!strict && le)) = true then some true
      else if ((strict && ge) || (!strict && gt)) = true then some false else none) = some answer) :
    answer = (if strict then decide (x < y) else decide (x ≤ y)) := by
  grind

section

variable (ha : a.Spans env ty x) (hb : b.Spans env ty y)

include ha hb

theorem equalRanges_agrees : (equalRanges ty a b).Agrees (decide (x = y)) := by
  intro answer h
  simp only [equalRanges, Assuming.bind_value, Assuming.both_value, ordered_value] at h
  split at h
  · next single =>
      simp only [Bool.and_eq_true, beq_iff_eq] at single
      have singleA := Bound.compared_of_eq single.1
      have singleB := Bound.compared_of_eq single.2
      obtain ⟨maxA, uniqueA⟩ := ha.single singleA
      obtain ⟨maxB, uniqueB⟩ := hb.single singleB
      have denotes : b.min.Denotes env ty y := (uniqueB y).mpr rfl
      simp only [Assuming.bind_value, Assuming.pure_value, maxA, maxB, Bool.and_self] at h
      have compared := Bound.compared_compareAssuming ty a.min b.min
      split at h
      · next equal =>
          cases h
          rw [eq_of_beq equal] at compared
          rw [← compared.eq] at denotes
          simp [(uniqueA y).mp denotes]
      · next differ =>
          split at h
          · next known =>
              cases h
              have := ha.single_ne singleA denotes compared (by simpa using differ)
                (by simpa using known)
              simp [this]
          · cases h
  · simp only [Assuming.bind_value, Assuming.pure_value, Assuming.either_value, ordered_value] at h
    split at h
    · next apart =>
        cases h
        simp only [Bool.or_eq_true, beq_iff_eq] at apart
        rcases apart with above | below
        · have := ha.lower.lt_of_greater ha.least hb.stops (Bound.compared_of_eq above)
          simp [Int.ne_of_gt this]
        · have := hb.lower.lt_of_greater hb.least ha.stops (Bound.compared_of_eq below)
          simp [Int.ne_of_lt this]
    · cases h

theorem distinctRanges_agrees : (distinctRanges ty a b).Agrees (decide (x ≠ y)) := by
  intro answer h
  simp only [distinctRanges, Assuming.bind_value] at h
  split at h
  · next apart =>
      cases h
      simp only [Bool.or_eq_true, Bool.and_eq_true, beq_iff_eq] at apart
      rcases apart with ⟨above, -⟩ | ⟨-, below⟩
      · have := ha.upper.lt_of_less ha.greatest hb.starts (Bound.compared_of_eq above)
        simp [Int.ne_of_lt this]
      · have := ha.lower.lt_of_greater ha.least hb.stops (Bound.compared_of_eq below)
        simp [Int.ne_of_gt this]
  · simp only [Assuming.bind_value, Assuming.pure_value, Assuming.both_value, ordered_value] at h
    split at h
    · next same =>
        cases h
        simp only [Bool.and_eq_true, beq_iff_eq] at same
        obtain ⟨singleA, singleB, low, -⟩ := same
        have denotes := ((hb.single (Bound.compared_of_eq singleB)).2 y).mpr rfl
        rw [← (Bound.compared_of_eq low).eq] at denotes
        simp [((ha.single (Bound.compared_of_eq singleA)).2 y).mp denotes]
    · cases h

theorem belowRanges_agrees (strict : Bool) :
    (belowRanges strict ty a b).Agrees (if strict then decide (x < y) else decide (x ≤ y)) := by
  intro answer h
  have left := Bound.compared_compareAssuming ty a.max b.min
  have right := Bound.compared_compareAssuming ty a.min b.max
  refine decided_below (fun order => ?_) (fun order => ?_) (fun order => ?_) (fun order => ?_)
    (by simpa only [belowRanges, Assuming.bind_value, apply_ite Assuming.value,
      Assuming.pure_value] using h)
  · exact ha.upper.lt_of_less ha.greatest hb.starts (eq_of_beq order ▸ left)
  · exact ha.upper.le_of_isLe ha.greatest hb.starts left order
  · exact ha.lower.le_of_isGe ha.least hb.stops right order
  · exact ha.lower.lt_of_greater ha.least hb.stops (eq_of_beq order ▸ right)

end

theorem compareIntervals_agrees (op : CmpOp) (ha : a.Spans env ty x) (hb : b.Spans env ty y) :
    (compareIntervals op ty a b).Agrees (op.eval x y) := by
  cases op with
  | eq => exact equalRanges_agrees ha hb
  | ne => exact distinctRanges_agrees ha hb
  | lt => exact belowRanges_agrees ha hb true
  | le => exact belowRanges_agrees ha hb false
  | gt => exact belowRanges_agrees hb ha true
  | ge => exact belowRanges_agrees hb ha false

section

variable (ha : a.Spans env ty x) (denotes : bound.Denotes env ty y)

include ha denotes

theorem Spans.lt_of_less (order : (Bound.compareAssuming ty a.max bound).value = .less) : x < y :=
  ha.upper.lt_of_less ha.greatest denotes.starts (Bound.compared_of_eq order)

theorem Spans.lt_of_greater (order : (Bound.compareAssuming ty a.min bound).value = .greater) :
    y < x :=
  ha.lower.lt_of_greater ha.least denotes.stops (Bound.compared_of_eq order)

theorem equalsBound_agrees : (compareIntervalWithBound .eq ty a bound).Agrees (decide (x = y)) := by
  intro answer h
  by_cases single : (Bound.compareAssuming ty a.min a.max).value = .equal
  · have same := Bound.compared_of_eq single
    have compared := Bound.compared_compareAssuming ty a.min bound
    simp only [compareIntervalWithBound, Assuming.bind_value, ordered_value, single,
      beq_self_eq_true, if_true] at h
    cases order : (Bound.compareAssuming ty a.min bound).value with
    | equal =>
        rw [order] at h compared
        cases h
        rw [← compared.eq] at denotes
        simp [((ha.single same).2 y).mp denotes]
    | less | greater | notEqual =>
        rw [order] at h compared
        cases h
        simp [ha.single_ne same denotes compared]
    | unknown =>
        rw [order] at h
        cases h
  · simp only [compareIntervalWithBound, Assuming.bind_value, ordered_value, beq_iff_eq, single,
      if_false, Assuming.either_value, Assuming.pure_value] at h
    split at h
    · next apart =>
        cases h
        simp only [Bool.or_eq_true, beq_iff_eq] at apart
        rcases apart with below | above
        · have := ha.lower.lt_of_greater ha.least denotes.stops
            (Bound.compared_of_eq below).greater_of_less
          simp [Int.ne_of_gt this]
        · simp [Int.ne_of_lt (ha.lt_of_less denotes above)]
    · cases h

theorem differsFromBound_agrees :
    (compareIntervalWithBound .ne ty a bound).Agrees (decide (x ≠ y)) := by
  intro answer h
  simp only [compareIntervalWithBound, Assuming.bind_value, Assuming.either_value,
    ordered_value] at h
  split at h
  · next apart =>
      cases h
      simp only [Bool.or_eq_true, beq_iff_eq] at apart
      rcases apart with above | below
      · simp [Int.ne_of_lt (ha.lt_of_less denotes above)]
      · simp [Int.ne_of_gt (ha.lt_of_greater denotes below)]
  · simp only [Assuming.bind_value, Assuming.pure_value, Assuming.both_value, ordered_value] at h
    split at h
    · next same =>
        cases h
        simp only [Bool.and_eq_true, beq_iff_eq] at same
        rw [← (Bound.compared_of_eq same.2).eq] at denotes
        simp [((ha.single (Bound.compared_of_eq same.1)).2 y).mp denotes]
    · cases h

theorem compareIntervalWithBound_agrees (op : CmpOp) :
    (compareIntervalWithBound op ty a bound).Agrees (op.eval x y) := by
  have lt := fun order => ha.lt_of_less denotes (eq_of_beq order)
  have gt := fun order => ha.lt_of_greater denotes (eq_of_beq order)
  have le := ha.upper.le_of_isLe ha.greatest denotes.starts (Bound.compared_of_eq rfl)
  have ge := ha.lower.le_of_isGe ha.least denotes.stops (Bound.compared_of_eq rfl)
  intro answer h
  cases op with
  | eq => exact equalsBound_agrees ha denotes answer h
  | ne => exact differsFromBound_agrees ha denotes answer h
  | lt | le =>
      exact decided_below lt le ge gt (by
        simpa only [compareIntervalWithBound, Assuming.bind_value, apply_ite Assuming.value,
          Assuming.pure_value] using h)
  | gt | ge =>
      exact decided_below gt ge le lt (by
        simpa only [compareIntervalWithBound, Assuming.bind_value, apply_ite Assuming.value,
          Assuming.pure_value] using h)

end

theorem Proper.spans (h : a.Proper ty) (holds : a.Holds env ty x) (range : a.isRange = true) :
    a.Spans env ty x := by
  obtain ⟨lower, upper⟩ := h.ends range
  obtain ⟨least, greatest⟩ := holds.within range
  exact ⟨lower, upper, least, greatest⟩

/-- A value of an interval is not a value of its complement. -/
theorem ne_of_compareWithAnti {op : CmpOp} {answer : Bool} (anti : a.isAnti = true)
    (ha : a.Holds env ty x) (hb : b.Spans env ty y)
    (h : (compareWithAnti op ty a b).value = some answer) : answer = (op == .ne) ∧ x ≠ y := by
  obtain ⟨extent, equiv⟩ := a
  cases extent with
  | undefined | varying | inside => cases anti
  | outside lo hi =>
      simp only [compareWithAnti, Assuming.bind_value, Assuming.both_value, ordered_value,
        Assuming.pure_value] at h
      split at h
      · next same =>
          cases h
          simp only [Bool.and_eq_true, beq_iff_eq] at same
          have low : lo = b.min := (Bound.compared_of_eq same.1).eq
          have high : hi = b.max := (Bound.compared_of_eq same.2).eq
          subst low high
          refine ⟨rfl, ?_⟩
          rintro rfl
          exact ha ⟨hb.least, hb.greatest⟩
      · cases h

/-- A decided comparison of two ranges is right about all their values. -/
theorem compare_agrees (op : CmpOp) (properA : a.Proper ty) (properB : b.Proper ty)
    (ha : a.Holds env ty x) (hb : b.Holds env ty y) :
    (compare op ty a b).Agrees (op.eval x y) := by
  intro answer h
  unfold compare at h
  split at h
  · cases h
  · next bounded =>
      obtain ⟨boundedA, boundedB⟩ : a.isBounded = true ∧ b.isBounded = true := by
        simpa using bounded
      split at h
      · next anti =>
          split at h
          · cases h
          · next mixed =>
              obtain ⟨oneRange, equality⟩ : (a.isAnti = true → b.isAnti = false) ∧
                  op.isEquality = true := by simpa using mixed
              split at h
              · next antiA =>
                  have spans := properB.spans hb (isRange_of_isBounded boundedB (oneRange antiA))
                  obtain ⟨rfl, differ⟩ := ne_of_compareWithAnti antiA ha spans h
                  exact (CmpOp.eval_of_ne equality differ).symm
              · next rangeA =>
                  have rangeA := Bool.eq_false_iff.mpr rangeA
                  have antiB : b.isAnti = true := by simpa [rangeA] using anti
                  have spans := properA.spans ha (isRange_of_isBounded boundedA rangeA)
                  obtain ⟨rfl, differ⟩ := ne_of_compareWithAnti antiB hb spans h
                  exact (CmpOp.eval_of_ne equality differ.symm).symm
      · next ranges =>
          simp only [Bool.or_eq_true, not_or, Bool.not_eq_true] at ranges
          have spansA := properA.spans ha (isRange_of_isBounded boundedA ranges.1)
          have spansB := properB.spans hb (isRange_of_isBounded boundedB ranges.2)
          simp only [Assuming.bind_value] at h
          split at h
          · exact compareIntervals_agrees op spansA spansB answer h
          · cases h

/-- What a bound in the gap of a complement denotes is not a value of the complement. -/
theorem ne_of_inside? (proper : a.Proper ty) (anti : a.isAnti = true) (ha : a.Holds env ty x)
    (denotes : bound.Denotes env ty y)
    (gap : Bound.inside? ty bound a.min a.max = some true) : x ≠ y := by
  rintro rfl
  obtain ⟨extent, equiv⟩ := a
  obtain ⟨above, below⟩ := Bound.inside?_eq_true gap
  cases (proper : extent.Proper ty) with
  | undefined | varying | inside => cases anti
  | apartFrom n offset =>
      cases Bound.eq_of_not_less? above
      exact ha ⟨denotes.starts, denotes.stops⟩
  | @outside c d low high order =>
      cases bound with
      | negInf => cases above.symm.trans (Bound.less?_negInf_const c)
      | posInf => cases below.symm.trans (Bound.less?_const_posInf d)
      | symbolic => cases above
      | const e =>
          cases denotes
          exact ha ⟨Bound.le_of_not_less? env rfl rfl above,
            Bound.le_of_not_less? env rfl rfl below⟩

/-- A decided comparison of a range with a bound is right about all values of the range. -/
theorem compareWithBound_agrees (op : CmpOp) (proper : a.Proper ty) (ha : a.Holds env ty x)
    (denotes : bound.Denotes env ty y) :
    (compareWithBound op ty a bound).Agrees (op.eval x y) := by
  intro answer h
  unfold compareWithBound at h
  split at h
  · cases h
  · next bounded =>
      split at h
      · next anti =>
          simp only [Assuming.pure_value] at h
          split at h
          · next decided =>
              cases h
              obtain ⟨equality, gap⟩ := Bool.and_eq_true_iff.mp decided
              exact (CmpOp.eval_of_ne equality
                (ne_of_inside? proper anti ha denotes (eq_of_beq gap))).symm
          · cases h
      · next range =>
          have spans := proper.spans ha
            (isRange_of_isBounded (by simpa using bounded) (Bool.eq_false_iff.mpr range))
          simp only [Assuming.bind_value] at h
          split at h
          · exact compareIntervalWithBound_agrees spans denotes op answer h
          · cases h

end ValueRange

end RangeFlow
