import Mathlib.Data.Rat.Floor
import RangeFlow.Proofs.Intervals

/-! # Results at the corners of two intervals

A product of numbers from two intervals lies between products of their ends. So does anything that
is computed from the product by a monotone rounding, such as a quotient or a shift. Which ends to
take depends on the signs alone, and the signs also tell an infinity that is passed on from a result
that has left the type.
-/

namespace RangeFlow

section Products

variable {R : Type} [CommRing R] [LinearOrder R] [IsStrictOrderedRing R] {x x0 x1 y y0 y1 : R}

/-- Two ends whose product is not below a product of values, with what their signs are. -/
theorem le_corner (hx : x0 ≤ x ∧ x ≤ x1) (hy : y0 ≤ y ∧ y ≤ y1) :
    (x * y ≤ x1 * y1 ∧ 0 ≤ x1 ∧ 0 ≤ y1) ∨ (x * y ≤ x1 * y0 ∧ x1 < 0) ∨
    (x * y ≤ x0 * y1 ∧ 0 ≤ x0) ∨ (x * y ≤ x0 * y0 ∧ x0 < 0 ∧ y0 < 0) := by
  rcases le_or_gt 0 y with positive | negative
  · have first : x * y ≤ x1 * y := mul_le_mul_of_nonneg_right hx.2 positive
    rcases le_or_gt 0 x1 with sign | sign
    · exact .inl ⟨first.trans (mul_le_mul_of_nonneg_left hy.2 sign), sign, positive.trans hy.2⟩
    · exact .inr (.inl ⟨first.trans (mul_le_mul_of_nonpos_left hy.1 sign.le), sign⟩)
  · have first : x * y ≤ x0 * y := mul_le_mul_of_nonpos_right hx.1 negative.le
    rcases le_or_gt 0 x0 with sign | sign
    · exact .inr (.inr (.inl ⟨first.trans (mul_le_mul_of_nonneg_left hy.2 sign), sign⟩))
    · exact .inr (.inr (.inr ⟨first.trans (mul_le_mul_of_nonpos_left hy.1 sign.le), sign,
        hy.1.trans_lt negative⟩))

/-- Two ends whose product is not above a product of values, with what their signs are. -/
theorem corner_le (hx : x0 ≤ x ∧ x ≤ x1) (hy : y0 ≤ y ∧ y ≤ y1) :
    (x0 * y1 ≤ x * y ∧ x0 < 0 ∧ 0 ≤ y1) ∨ (x0 * y0 ≤ x * y ∧ 0 ≤ x0) ∨
    (x1 * y0 ≤ x * y ∧ 0 ≤ x1 ∧ y0 < 0) ∨ (x1 * y1 ≤ x * y ∧ x1 < 0) := by
  rcases le_or_gt 0 y with positive | negative
  · have last : x0 * y ≤ x * y := mul_le_mul_of_nonneg_right hx.1 positive
    rcases le_or_gt 0 x0 with sign | sign
    · exact .inr (.inl ⟨(mul_le_mul_of_nonneg_left hy.1 sign).trans last, sign⟩)
    · exact .inl ⟨(mul_le_mul_of_nonpos_left hy.2 sign.le).trans last, sign, positive.trans hy.2⟩
  · have last : x1 * y ≤ x * y := mul_le_mul_of_nonpos_right hx.2 negative.le
    rcases le_or_gt 0 x1 with sign | sign
    · exact .inr (.inr (.inl ⟨(mul_le_mul_of_nonneg_left hy.1 sign).trans last, sign,
        hy.1.trans_lt negative⟩))
    · exact .inr (.inr (.inr ⟨(mul_le_mul_of_nonpos_left hy.2 sign.le).trans last, sign⟩))

theorem exists_le_corner (hx : x0 ≤ x ∧ x ≤ x1) (hy : y0 ≤ y ∧ y ≤ y1) :
    ∃ s ∈ [x0, x1], ∃ t ∈ [y0, y1], x * y ≤ s * t := by
  rcases le_corner hx hy with ⟨h, -⟩ | ⟨h, -⟩ | ⟨h, -⟩ | ⟨h, -⟩
  · exact ⟨x1, by simp, y1, by simp, h⟩
  · exact ⟨x1, by simp, y0, by simp, h⟩
  · exact ⟨x0, by simp, y1, by simp, h⟩
  · exact ⟨x0, by simp, y0, by simp, h⟩

theorem exists_corner_le (hx : x0 ≤ x ∧ x ≤ x1) (hy : y0 ≤ y ∧ y ≤ y1) :
    ∃ s ∈ [x0, x1], ∃ t ∈ [y0, y1], s * t ≤ x * y := by
  rcases corner_le hx hy with ⟨h, -⟩ | ⟨h, -⟩ | ⟨h, -⟩ | ⟨h, -⟩
  · exact ⟨x0, by simp, y1, by simp, h⟩
  · exact ⟨x0, by simp, y0, by simp, h⟩
  · exact ⟨x1, by simp, y0, by simp, h⟩
  · exact ⟨x1, by simp, y1, by simp, h⟩

end Products

namespace Bound

variable {env : NameId → Int} {ty : ScalarType} {a b : Bound}

/-- Bounds that mention no name compare. -/
theorem compare_trichotomy (ty : ScalarType) (ha : a.isSymbolic = false)
    (hb : b.isSymbolic = false) :
    compare ty a b = .less ∨ compare ty a b = .equal ∨ compare ty a b = .greater := by
  cases a with
  | symbolic => cases ha
  | negInf | posInf =>
      cases b with
      | symbolic => cases hb
      | negInf | const | posInf => simp
  | const c =>
      cases b with
      | symbolic => cases hb
      | negInf | posInf => simp
      | const d =>
          rw [compare_const, ofInts_eq_less, ofInts_eq_equal, ofInts_eq_greater]
          omega

theorem reading_le_of_not_less (ha : a.Fits ty ∧ a.isSymbolic = false)
    (hb : b.Fits ty ∧ b.isSymbolic = false) (h : (compare ty a b == .less) = false) :
    b.reading env ty ≤ a.reading env ty := by
  rcases compare_trichotomy ty ha.2 hb.2 with order | order | order
  · simp [order] at h
  · rw [eq_of_compare_equal order]
  · exact reading_le_of_greater ha.1 hb.1 order

theorem reading_le_of_not_greater (ha : a.Fits ty ∧ a.isSymbolic = false)
    (hb : b.Fits ty ∧ b.isSymbolic = false) (h : (compare ty a b == .greater) = false) :
    a.reading env ty ≤ b.reading env ty := by
  rcases compare_trichotomy ty ha.2 hb.2 with order | order | order
  · exact reading_le_of_less ha.1 hb.1 order
  · rw [eq_of_compare_equal order]
  · simp [order] at h

end Bound

namespace ValueRange

variable {env : NameId → Int} {ty : ScalarType} {op : BinaryOp} {a b vr : ValueRange} {v x y : Int}

/-- What an operator makes of two ends: its exact result if that is a value of the type, or an
    infinity if overflow is undefined. -/
inductive EndResult (op : BinaryOp) (ty : ScalarType) (a b : Bound) (x y : Int) : Bound → Prop where
  | value {p : Int} (exact_ : op.applyExact x y ty = some p) (fits : ty.fits p = true) :
      EndResult op ty a b x y (.const p)
  | beyond {p : Int} {c : Bound} (exact_ : op.applyExact x y ty = some p)
      (undefined : ty.overflowUndefined = true)
      (reason : ty.fits p = false ∨ a.isInfinity = true ∨ b.isInfinity = true)
      (infinite : c.isInfinity = true)
      (product : op = .mul → (x = 0 → a.isInfinity = true) ∧ (y = 0 → b.isInfinity = true) ∧
        c = if x.sign = y.sign then .posInf else .negInf)
      (quotient : op.isDivision = true → c = .posInf)
      (rounded : op.isDivision = true ∨ op = .shr → a.isInfinity = false ∧ b.isInfinity = false) :
      EndResult op ty a b x y c

theorem boundBinary?_result {lo hi c : Bound} (h : boundBinary? op ty lo hi = some c) :
    ∃ x y, lo.concrete? ty = some x ∧ hi.concrete? ty = some y ∧ EndResult op ty lo hi x y c := by
  simp only [boundBinary?, Option.bind_eq_bind, Option.bind_eq_some_iff] at h
  obtain ⟨x, hx, y, hy, h⟩ := h
  have either : ∀ positive : Bool,
      (if positive then Bound.posInf else .negInf).isInfinity = true := by
    rintro (_ | _) <;> rfl
  refine ⟨x, y, hx, hy, ?_⟩
  split at h
  · obtain ⟨p, exact_, h⟩ := Option.bind_eq_some_iff.mp h
    split at h
    · next fits =>
        cases h
        exact .value exact_ fits
    · cases h
  · next undefined =>
      split at h
      · next zero =>
          cases h
          simp only [Bool.and_eq_true, Bool.or_eq_true, beq_iff_eq] at zero
          obtain ⟨rfl, side⟩ := zero
          refine .value ?_ ty.fits_zero
          rcases side with ⟨rfl, -⟩ | ⟨rfl, -⟩
          · simp only [BinaryOp.applyExact, Wide.mul?, Int.zero_mul]
            rfl
          · simp only [BinaryOp.applyExact, Wide.mul?, Int.mul_zero]
            rfl
      · next nonzero =>
          obtain ⟨p, exact_, h⟩ := Option.bind_eq_some_iff.mp h
          split at h
          · next known =>
              cases h
              exact .value exact_ (Bool.and_eq_true_iff.mp known).2
          · next unknown =>
              split at h
              · cases h
              · split at h
                · cases h
                · next finite =>
                    cases h
                    refine .beyond exact_ (by simpa using undefined) ?_ ?_ ?_ ?_ ?_
                    · grind
                    · exact either _
                    · rintro rfl
                      grind
                    · intro division
                      cases op <;> first | rfl | cases division
                    · grind

theorem EndResult.isSymbolic {lo hi c : Bound} (h : EndResult op ty lo hi x y c) :
    c.isSymbolic = false := by
  cases h with
  | value => rfl
  | beyond _ _ _ infinite =>
      cases c with
      | symbolic => cases infinite
      | negInf | const | posInf => rfl

theorem mul_nonneg_of_sign_eq (h : x.sign = y.sign) : 0 ≤ x * y := by
  rcases lt_trichotomy x 0 with hx | rfl | hx
  · rw [Int.sign_eq_neg_one_of_neg hx] at h
    exact mul_nonneg_of_nonpos_of_nonpos hx.le (Int.neg_of_sign_eq_neg_one h.symm).le
  · simp
  · rw [Int.sign_eq_one_of_pos hx] at h
    exact mul_nonneg hx.le (Int.pos_of_sign_eq_one h.symm).le

theorem mul_nonpos_of_sign_ne (h : x.sign ≠ y.sign) : x * y ≤ 0 := by
  rcases lt_trichotomy x 0 with hx | rfl | hx
  · refine mul_nonpos_of_nonpos_of_nonneg hx.le (not_lt.mp fun hy => h ?_)
    rw [Int.sign_eq_neg_one_of_neg hx, Int.sign_eq_neg_one_of_neg hy]
  · simp
  · refine mul_nonpos_of_nonneg_of_nonpos hx.le (not_lt.mp fun hy => h ?_)
    rw [Int.sign_eq_one_of_pos hx, Int.sign_eq_one_of_pos hy]

theorem maxValue_eq_zero {bound : Bound} (signed : ty.signed = true)
    (infinite : bound.isInfinity = true) (zero : bound.concrete? ty = some 0) :
    ty.maxValue = 0 := by
  cases bound with
  | negInf =>
      have ends := ScalarType.ends_of_signed signed
      have half := twoPow_pos (ty.precision - 1)
      have least := Option.some.inj zero
      omega
  | posInf => exact Option.some.inj zero
  | const | symbolic => cases infinite

theorem le_mul_end {s t c : Bound} (hs : s.Fits ty) (ht : t.Fits ty)
    (h : boundBinary? .mul ty s t = some c) (hv : ty.fits v = true)
    (below : v ≤ s.reading env ty * t.reading env ty)
    (signs : s.isInfinity = true ∨ t.isInfinity = true →
      0 ≤ s.reading env ty ∧ 0 ≤ t.reading env ty ∨ s.reading env ty < 0 ∧ t.reading env ty < 0) :
    v ≤ c.reading env ty := by
  obtain ⟨x, y, hx, hy, result⟩ := boundBinary?_result h
  rw [reading_of_concrete? hx, reading_of_concrete? hy] at below signs
  have fitsX := ScalarType.fits_iff.mp (fits_of_concrete? hs hx)
  have fitsY := ScalarType.fits_iff.mp (fits_of_concrete? ht hy)
  have fits := ScalarType.fits_iff.mp hv
  cases result with
  | value exact_ =>
      rw [Wide.eq_of_check exact_]
      exact below
  | @beyond p _ exact_ undefined reason _ product =>
      obtain ⟨zeroX, zeroY, sign⟩ := product rfl
      split at sign
      · rw [sign]
        exact fits.2
      · next differ =>
          have negative := mul_nonpos_of_sign_ne differ
          have greatest := ty.maxValue_nonneg
          rcases reason with outside | infinite
          · -- the product has left the type downwards, and so would the value
            rw [Wide.eq_of_check exact_, Bool.eq_false_iff, ne_eq, ScalarType.fits_iff] at outside
            omega
          · -- an infinity is zero only in a type that has no positive values
            have signed := ScalarType.signed_of_overflowUndefined undefined
            rcases signs infinite with ⟨positive, positive'⟩ | ⟨negative, negative'⟩
            · rcases eq_or_lt_of_le positive with rfl | positive
              · have none := maxValue_eq_zero signed (zeroX rfl) hx
                exact absurd (by omega : (0 : Int) = y) fun same => differ (by rw [same])
              · rcases eq_or_lt_of_le positive' with rfl | positive'
                · have none := maxValue_eq_zero signed (zeroY rfl) hy
                  omega
                · rw [Int.sign_eq_one_of_pos positive, Int.sign_eq_one_of_pos positive'] at differ
                  exact absurd rfl differ
            · rw [Int.sign_eq_neg_one_of_neg negative,
                Int.sign_eq_neg_one_of_neg negative'] at differ
              exact absurd rfl differ

theorem mul_end_le {s t c : Bound} (h : boundBinary? .mul ty s t = some c) (hv : ty.fits v = true)
    (above : s.reading env ty * t.reading env ty ≤ v)
    (signs : s.isInfinity = true ∨ t.isInfinity = true →
      s.reading env ty < 0 ∧ 0 ≤ t.reading env ty ∨ 0 ≤ s.reading env ty ∧ t.reading env ty < 0) :
    c.reading env ty ≤ v := by
  obtain ⟨x, y, hx, hy, result⟩ := boundBinary?_result h
  rw [reading_of_concrete? hx, reading_of_concrete? hy] at above signs
  have fits := ScalarType.fits_iff.mp hv
  cases result with
  | value exact_ =>
      rw [Wide.eq_of_check exact_]
      exact above
  | @beyond p _ exact_ undefined reason _ product =>
      obtain ⟨-, -, sign⟩ := product rfl
      split at sign
      · next same =>
          have positive := mul_nonneg_of_sign_eq same
          have least := ty.minValue_nonpos
          rcases reason with outside | infinite
          · rw [Wide.eq_of_check exact_, Bool.eq_false_iff, ne_eq, ScalarType.fits_iff] at outside
            omega
          · rcases signs infinite with ⟨negative, positive⟩ | ⟨positive, negative⟩
            · rw [Int.sign_eq_neg_one_of_neg negative] at same
              have := Int.neg_of_sign_eq_neg_one same.symm
              omega
            · rw [Int.sign_eq_neg_one_of_neg negative] at same
              have := Int.neg_of_sign_eq_neg_one same
              omega
      · rw [sign]
        exact fits.1

theorem foldl_pick_le {pick : Bound → Bound → Bool} (height : Bound → Int) {P : Bound → Prop}
    (taken : ∀ x y, P x → P y → pick x y = true → height x ≤ height y)
    (kept : ∀ x y, P x → P y → pick x y = false → height y ≤ height x) {bounds : List Bound}
    (first : Bound) (all : ∀ x ∈ first :: bounds, P x) : ∀ x ∈ first :: bounds,
      height (bounds.foldl (fun m v => if pick v m then v else m) first) ≤ height x := by
  induction bounds generalizing first with
  | nil =>
      intro x hx
      rw [List.mem_singleton.mp hx]
      exact le_rfl
  | cons next rest ih =>
      have hfirst := all first (by simp)
      have hnext := all next (by simp)
      have chosen : P (if pick next first then next else first) ∧
          height (if pick next first then next else first) ≤ height first ∧
          height (if pick next first then next else first) ≤ height next := by
        split
        · next picked => exact ⟨hnext, taken next first hnext hfirst picked, le_rfl⟩
        · next left =>
            exact ⟨hfirst, le_rfl, kept next first hnext hfirst (Bool.eq_false_iff.mpr left)⟩
      obtain ⟨good, belowFirst, belowNext⟩ := chosen
      have below := ih (if pick next first then next else first) (by
        intro x hx
        rcases List.mem_cons.mp hx with rfl | hx
        · exact good
        · exact all x (by simp [hx]))
      intro x hx
      rcases List.mem_cons.mp hx with rfl | hx
      · exact (below _ (by simp)).trans belowFirst
      · rcases List.mem_cons.mp hx with rfl | hx
        · exact (below _ (by simp)).trans belowNext
        · exact below x (by simp [hx])

theorem exists_mem_of_mapM {α β : Type} {f : α → Option β} {l : List α} {results : List β}
    (h : l.mapM f = some results) {x : α} (hx : x ∈ l) : ∃ y ∈ results, f x = some y := by
  induction l generalizing results with
  | nil => cases hx
  | cons first rest ih =>
      simp only [List.mapM_cons, Option.bind_eq_bind, Option.bind_eq_some_iff] at h
      obtain ⟨y, hy, others, hothers, same⟩ := h
      cases same
      rcases List.mem_cons.mp hx with rfl | hx
      · exact ⟨y, by simp, hy⟩
      · obtain ⟨y', hy', found⟩ := ih hothers hx
        exact ⟨y', by simp [hy'], found⟩

theorem mem_corners {s t : Bound} (hs : s ∈ [a.min, a.max]) (ht : t ∈ [b.min, b.max]) :
    (s, t) ∈ [(a.min, b.min)] ++ (if b.min = b.max then [] else [(a.min, b.max)]) ++
      (if a.min = a.max then [] else [(a.max, b.min)]) ++
      (if a.min = a.max ∨ b.min = b.max then [] else [(a.max, b.max)]) := by
  simp only [List.mem_cons, List.not_mem_nil, or_false] at hs ht
  rcases hs with rfl | rfl <;> rcases ht with rfl | rfl <;> grind

/-- A value between the results at two corners is in the span of the results at all of them. -/
theorem crossProducts_holds
    (corners : (∀ s ∈ [a.min, a.max], s.isSymbolic = false) →
      (∀ t ∈ [b.min, b.max], t.isSymbolic = false) →
      (∃ s ∈ [a.min, a.max], ∃ t ∈ [b.min, b.max], ∀ c,
        boundBinary? op ty s t = some c → v ≤ c.reading env ty) ∧
      ∃ s ∈ [a.min, a.max], ∃ t ∈ [b.min, b.max], ∀ c,
        boundBinary? op ty s t = some c → c.reading env ty ≤ v) :
    (crossProducts op ty a b).Holds env ty v := by
  unfold crossProducts
  dsimp only
  split
  · next first rest results =>
      have found : ∀ s ∈ [a.min, a.max], ∀ t ∈ [b.min, b.max],
          ∃ c ∈ first :: rest, boundBinary? op ty s t = some c :=
        fun s hs t ht => exists_mem_of_mapM results (mem_corners hs ht)
      have numbers : (∀ s ∈ [a.min, a.max], s.isSymbolic = false) ∧
          ∀ t ∈ [b.min, b.max], t.isSymbolic = false := by
        have concrete : ∀ {bound : Bound} {x : Int}, bound.concrete? ty = some x →
            bound.isSymbolic = false := by
          intro bound x h
          cases bound with
          | symbolic => cases h
          | negInf | const | posInf => rfl
        constructor
        · intro s hs
          obtain ⟨c, -, result⟩ := found s hs b.min (by simp)
          obtain ⟨x, y, hx, -⟩ := boundBinary?_result result
          exact concrete hx
        · intro t ht
          obtain ⟨c, -, result⟩ := found a.min (by simp) t ht
          obtain ⟨x, y, -, hy, -⟩ := boundBinary?_result result
          exact concrete hy
      have numeric : ∀ c ∈ first :: rest, c.Fits ty ∧ c.isSymbolic = false := by
        intro c hc
        obtain ⟨pair, -, result⟩ := exists_of_mem_mapM results hc
        obtain ⟨x, y, -, -, found⟩ := boundBinary?_result result
        exact ⟨boundBinary?_fits result, found.isSymbolic⟩
      obtain ⟨⟨s, hs, t, ht, above⟩, ⟨s', hs', t', ht', below⟩⟩ := corners numbers.1 numbers.2
      obtain ⟨c, hc, result⟩ := found s hs t ht
      obtain ⟨c', hc', result'⟩ := found s' hs' t' ht'
      refine holds_finish_inside ⟨?_, ?_⟩
      · refine le_trans ?_ (below c' result')
        exact foldl_pick_le (Bound.reading env ty)
          (P := fun c => c.Fits ty ∧ c.isSymbolic = false) (fun x y hx hy picked =>
            Bound.reading_le_of_less hx.1 hy.1 (eq_of_beq picked))
          (fun x y hx hy left => Bound.reading_le_of_not_less hx hy left) _ numeric c' hc'
      · refine (above c result).trans (neg_le_neg_iff.mp ?_)
        exact foldl_pick_le (fun c => -c.reading env ty)
          (P := fun c => c.Fits ty ∧ c.isSymbolic = false) (fun x y hx hy picked =>
            neg_le_neg (Bound.reading_le_of_greater hx.1 hy.1 (eq_of_beq picked)))
          (fun x y hx hy left => neg_le_neg (Bound.reading_le_of_not_greater hx hy left))
          _ numeric c hc
  · trivial

theorem reading_neg_of_isInfinity (env : NameId → Int) {bound : Bound}
    (undefined : ty.overflowUndefined = true) (lower : bound.IsLower ty)
    (infinite : bound.isInfinity = true) : bound.reading env ty < 0 := by
  have ends := ScalarType.ends_of_signed (ScalarType.signed_of_overflowUndefined undefined)
  have half := twoPow_pos (ty.precision - 1)
  cases bound with
  | negInf =>
      simp only [Bound.reading]
      omega
  | posInf => exact absurd rfl lower.2
  | const | symbolic => cases infinite

theorem reading_nonneg_of_isInfinity (env : NameId → Int) {bound : Bound} (upper : bound.IsUpper ty)
    (infinite : bound.isInfinity = true) : 0 ≤ bound.reading env ty := by
  cases bound with
  | negInf => exact absurd rfl upper.2
  | posInf => exact ty.maxValue_nonneg
  | const | symbolic => cases infinite

/-- The product where overflow is undefined. At the ends chosen by the signs of the values, an
    infinity on the wrong side stands for a product that has left the type. -/
theorem crossProducts_mul_holds (undefined : ty.overflowUndefined = true) (ha : a.Proper ty)
    (hb : b.Proper ty) (rangeA : a.isRange = true) (rangeB : b.isRange = true)
    (holdsA : a.Holds env ty x) (holdsB : b.Holds env ty y) (hv : ty.fits (x * y) = true) :
    (crossProducts .mul ty a b).Holds env ty (x * y) := by
  obtain ⟨lowA, highA⟩ := ha.ends rangeA
  obtain ⟨lowB, highB⟩ := hb.ends rangeB
  have lowerA := reading_neg_of_isInfinity env undefined lowA
  have lowerB := reading_neg_of_isInfinity env undefined lowB
  have upperA := reading_nonneg_of_isInfinity env highA
  have upperB := reading_nonneg_of_isInfinity env highB
  refine crossProducts_holds fun _ _ => ⟨?_, ?_⟩
  · rcases le_corner (holdsA.within rangeA) (holdsB.within rangeB) with
      ⟨le, signs⟩ | ⟨le, sign⟩ | ⟨le, sign⟩ | ⟨le, signs⟩
    · refine ⟨a.max, by simp, b.max, by simp, fun c result => ?_⟩
      exact le_mul_end highA.1 highB.1 result hv le fun _ => .inl signs
    · refine ⟨a.max, by simp, b.min, by simp, fun c result => ?_⟩
      refine le_mul_end highA.1 lowB.1 result hv le ?_
      rintro (infinite | infinite)
      · exact absurd (upperA infinite) (not_le.mpr sign)
      · exact .inr ⟨sign, lowerB infinite⟩
    · refine ⟨a.min, by simp, b.max, by simp, fun c result => ?_⟩
      refine le_mul_end lowA.1 highB.1 result hv le ?_
      rintro (infinite | infinite)
      · exact absurd (lowerA infinite) (not_lt.mpr sign)
      · exact .inl ⟨sign, upperB infinite⟩
    · refine ⟨a.min, by simp, b.min, by simp, fun c result => ?_⟩
      exact le_mul_end lowA.1 lowB.1 result hv le fun _ => .inr signs
  · rcases corner_le (holdsA.within rangeA) (holdsB.within rangeB) with
      ⟨le, signs⟩ | ⟨le, sign⟩ | ⟨le, signs⟩ | ⟨le, sign⟩
    · refine ⟨a.min, by simp, b.max, by simp, fun c result => ?_⟩
      exact mul_end_le result hv le fun _ => .inl signs
    · refine ⟨a.min, by simp, b.min, by simp, fun c result => ?_⟩
      refine mul_end_le result hv le ?_
      rintro (infinite | infinite)
      · exact absurd (lowerA infinite) (not_lt.mpr sign)
      · exact .inr ⟨sign, lowerB infinite⟩
    · refine ⟨a.max, by simp, b.min, by simp, fun c result => ?_⟩
      exact mul_end_le result hv le fun _ => .inr signs
    · refine ⟨a.max, by simp, b.max, by simp, fun c result => ?_⟩
      refine mul_end_le result hv le ?_
      rintro (infinite | infinite)
      · exact absurd (upperA infinite) (not_le.mpr sign)
      · exact .inl ⟨sign, upperB infinite⟩

theorem exists_recentre (ty : ScalarType) {ends : Int × Int} (h : ends.1 ≤ x ∧ x ≤ ends.2) :
    ∃ x', x' % ty.size = x % ty.size ∧ (recentre ty ends).1 ≤ x' ∧ x' ≤ (recentre ty ends).2 := by
  unfold recentre
  split
  · exact ⟨x - ty.size, Int.sub_emod_right .., Int.sub_le_sub_right h.1 _,
      Int.sub_le_sub_right h.2 _⟩
  · exact ⟨x, rfl, h⟩

theorem endProducts?_eq_some {ends0 ends1 : Int × Int} {products : List Int}
    (h : endProducts? ends0 ends1 = some products) :
    products = [ends0.1 * ends1.1, ends0.1 * ends1.2, ends0.2 * ends1.1, ends0.2 * ends1.2] := by
  simp only [endProducts?, List.mapM_cons, List.mapM_nil, id, Option.bind_eq_bind,
    Option.bind_eq_some_iff, Option.pure_def, Option.some.injEq] at h
  obtain ⟨p, hp, _, ⟨q, hq, _, ⟨r, hr, _, ⟨s, hs, _, rfl, rfl⟩, rfl⟩, rfl⟩, rfl⟩ := h
  rw [Wide.eq_of_check hp, Wide.eq_of_check hq, Wide.eq_of_check hr, Wide.eq_of_check hs]

theorem wrappingProduct_holds {ends0 ends1 : Int × Int} (hx : ends0.1 ≤ x ∧ x ≤ ends0.2)
    (hy : ends1.1 ≤ y ∧ y ≤ ends1.2) :
    (wrappingProduct ty ends0 ends1).Holds env ty (ty.wrap (x * y)) := by
  obtain ⟨x', sameX, within⟩ := exists_recentre ty hx
  obtain ⟨y', sameY, within'⟩ := exists_recentre ty hy
  have same : ty.wrap (x * y) = ty.wrap (x' * y') := by
    refine ScalarType.wrap_eq_of_emod_eq ?_
    rw [Int.mul_emod, ← sameX, ← sameY, ← Int.mul_emod]
  unfold wrappingProduct
  split
  · next products found =>
      rw [endProducts?_eq_some found]
      dsimp only
      split
      · trivial
      · next short =>
          rw [same]
          refine Extent.holds_canonical_between (ty.wrap_fits _) (ty.wrap_fits _)
            (ty.wrap_fits _) (between_wrap ?_ ?_ (by omega))
          · obtain ⟨s, hs, t, ht, le⟩ := exists_corner_le within within'
            refine le_trans ?_ le
            simp only [List.mem_cons, List.not_mem_nil, or_false] at hs ht
            rcases hs with rfl | rfl <;> rcases ht with rfl | rfl <;>
              simp only [List.foldl_cons, List.foldl_nil] <;> omega
          · obtain ⟨s, hs, t, ht, le⟩ := exists_le_corner within within'
            refine le_trans le ?_
            simp only [List.mem_cons, List.not_mem_nil, or_false] at hs ht
            rcases hs with rfl | rfl <;> rcases ht with rfl | rfl <;>
              simp only [List.foldl_cons, List.foldl_nil] <;> omega
  · trivial

theorem constBounds?_isSome (ty : ScalarType) (bounded : vr.isBounded = true)
    (concrete : vr.isSymbolic = false) : ∃ lo hi, vr.constBounds? ty = some (lo, hi) := by
  have bounded : vr.extent.isBounded = true := bounded
  have numbers : vr.extent.min.isSymbolic = false ∧ vr.extent.max.isSymbolic = false := by
    simpa [isSymbolic, Extent.isSymbolic, bounded] using concrete
  refine ⟨vr.extent.min.reading (fun _ => 0) ty, vr.extent.max.reading (fun _ => 0) ty, ?_⟩
  simp [constBounds?, Extent.constBounds?, bounded,
    Bound.concrete?_eq_reading (fun _ => 0) numbers.1,
    Bound.concrete?_eq_reading (fun _ => 0) numbers.2]

theorem product_holds (integral : ty.isIntegral = true) (ha : a.Proper ty) (hb : b.Proper ty)
    (boundedA : a.isBounded = true) (boundedB : b.isBounded = true)
    (concreteA : a.isSymbolic = false) (concreteB : b.isSymbolic = false)
    (holdsA : a.Holds env ty x) (holdsB : b.Holds env ty y)
    (defined : ty.overflowUndefined = true → ty.fits (x * y) = true) :
    (product ty a b).Holds env ty (ty.wrap (x * y)) := by
  unfold product
  split
  · next ends0 ends1 wrapping hends0 hends1 =>
      simp only [Bool.and_eq_true] at wrapping
      exact wrappingProduct_holds (holdsA.within_constBounds? wrapping.1.2 hends0)
        (holdsB.within_constBounds? wrapping.2 hends1)
  · next other =>
      split
      · trivial
      · next intervals =>
          simp only [Bool.or_eq_true, not_or, Bool.not_eq_true] at intervals
          have rangeA := isRange_of_isBounded boundedA intervals.1
          have rangeB := isRange_of_isBounded boundedB intervals.2
          obtain ⟨lo0, hi0, hends0⟩ := constBounds?_isSome ty boundedA concreteA
          obtain ⟨lo1, hi1, hends1⟩ := constBounds?_isSome ty boundedB concreteB
          have strict : ty.wraps = false := by
            rw [Bool.eq_false_iff]
            intro wraps
            exact other _ _ (by simp [wraps, rangeA, rangeB]) hends0 hends1
          have undefined := ScalarType.overflowUndefined_of_not_wraps integral strict
          rw [ScalarType.wrap_of_fits (defined undefined)]
          exact crossProducts_mul_holds undefined ha hb rangeA rangeB holdsA holdsB
            (defined undefined)

end ValueRange
end RangeFlow
