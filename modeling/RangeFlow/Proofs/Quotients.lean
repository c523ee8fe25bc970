import RangeFlow.Proofs.Corners

/-! # Quotients and shifts

A quotient is a product with the inverse of the divisor, and a shift is a product with a power of
two, brought back to an integer by a rounding. All that is used of a rounding is that it is monotone
and keeps integers.
-/

namespace RangeFlow

/-- The function rounds to integers. -/
structure IsRounding (f : ℚ → Int) : Prop where
  mono : ∀ ⦃p q : ℚ⦄, p ≤ q → f p ≤ f q
  fixes : ∀ n : Int, f n = n

namespace IsRounding

variable {f : ℚ → Int} {q : ℚ} {n : Int}

theorem le (hf : IsRounding f) (h : (n : ℚ) ≤ q) : n ≤ f q := by
  rw [← hf.fixes n]
  exact hf.mono h

theorem ge (hf : IsRounding f) (h : q ≤ n) : f q ≤ n := by
  rw [← hf.fixes n]
  exact hf.mono h

theorem floor : IsRounding Int.floor := ⟨Int.floor_mono, Int.floor_intCast⟩

theorem ceil : IsRounding Int.ceil := ⟨Int.ceil_mono, Int.ceil_intCast⟩

end IsRounding

/-- The magnitude, moved up by `d` and rounded down, with the sign of the number. -/
def roundMagnitude (d q : ℚ) : Int := if 0 ≤ q then ⌊q + d⌋ else ⌈q - d⌉

section RoundMagnitude

variable {d : ℚ}

theorem IsRounding.roundMagnitude (nonneg : 0 ≤ d) (small : d < 1) :
    IsRounding (roundMagnitude d) := by
  constructor
  · intro p q le
    unfold RangeFlow.roundMagnitude
    split
    · next hp =>
        rw [if_pos (hp.trans le)]
        exact Int.floor_mono (by linarith)
    · next hp =>
        split
        · next hq =>
            have low : ⌈p - d⌉ ≤ 0 := Int.ceil_le.mpr (by push_cast; linarith)
            have high : 0 ≤ ⌊q + d⌋ := Int.floor_nonneg.mpr (by linarith)
            exact low.trans high
        · exact Int.ceil_mono (by linarith)
  · intro n
    unfold RangeFlow.roundMagnitude
    split
    · exact Int.floor_eq_iff.mpr ⟨by linarith, by linarith⟩
    · exact Int.ceil_eq_iff.mpr ⟨by linarith, by linarith⟩

theorem roundMagnitude_neg (nonneg : 0 ≤ d) (small : d < 1) (q : ℚ) :
    roundMagnitude d (-q) = -roundMagnitude d q := by
  rcases lt_trichotomy q 0 with negative | rfl | positive
  · rw [roundMagnitude, if_pos (by linarith), roundMagnitude, if_neg (by linarith),
      ← Int.floor_neg]
    congr 1
    ring
  · have zero : roundMagnitude d 0 = 0 := by
      exact_mod_cast (IsRounding.roundMagnitude nonneg small).fixes 0
    rw [neg_zero, zero, neg_zero]
  · rw [roundMagnitude, if_neg (by linarith), roundMagnitude, if_pos positive.le, ← Int.ceil_neg]
    congr 1
    ring

end RoundMagnitude

theorem floor_div (x : Int) {y : Int} (hy : y ≠ 0) : ⌊(x : ℚ) / y⌋ = x.fdiv y := by
  rcases lt_or_gt_of_ne hy with negative | positive
  · obtain ⟨n, hn⟩ := Int.eq_ofNat_of_zero_le (show 0 ≤ -y by omega)
    have same : (x : ℚ) / y = ((-x : Int) : ℚ) / (n : Nat) := by
      rw [show (n : ℚ) = ((-y : Int) : ℚ) by rw [hn]; simp]
      push_cast
      rw [neg_div_neg_eq]
    rw [same, Rat.floor_intCast_div_natCast, ← hn, ← Int.neg_fdiv_neg x y,
      Int.fdiv_eq_ediv_of_nonneg _ (by omega)]
  · obtain ⟨n, rfl⟩ := Int.eq_ofNat_of_zero_le positive.le
    rw [Int.fdiv_eq_ediv_of_nonneg _ positive.le]
    exact_mod_cast Rat.floor_intCast_div_natCast x n

/-- A quotient that changes its sign with either side is known from its values on naturals. -/
theorem eq_roundMagnitude {d : ℚ} (nonneg : 0 ≤ d) (small : d < 1) {g : Int → Int → Int}
    (negLeft : ∀ x y, y ≠ 0 → g (-x) y = -g x y) (negRight : ∀ x y, y ≠ 0 → g x (-y) = -g x y)
    (base : ∀ m n : Nat, n ≠ 0 → g m n = ⌊(m : ℚ) / n + d⌋) (x : Int) {y : Int} (hy : y ≠ 0) :
    g x y = roundMagnitude d (x / y) := by
  have natural : ∀ m n : Nat, n ≠ 0 → g m n = roundMagnitude d ((m : ℚ) / n) := by
    intro m n hn
    rw [base m n hn, roundMagnitude, if_pos (by positivity)]
  have odd := roundMagnitude_neg nonneg small
  obtain ⟨m, rfl | rfl⟩ := x.eq_nat_or_neg <;> obtain ⟨n, rfl | rfl⟩ := y.eq_nat_or_neg
  · exact natural m n (by simpa using hy)
  · rw [negRight _ _ (by simpa using hy), natural m n (by simpa using hy), ← odd]
    push_cast
    rw [div_neg]
  · rw [negLeft _ _ hy, natural m n (by simpa using hy), ← odd]
    push_cast
    rw [neg_div]
  · rw [negLeft _ _ hy, negRight _ _ (by simpa using hy), neg_neg,
      natural m n (by simpa using hy)]
    push_cast
    rw [neg_div_neg_eq]

theorem tdiv_eq_roundMagnitude (x : Int) {y : Int} (hy : y ≠ 0) :
    x.tdiv y = roundMagnitude 0 (x / y) := by
  refine eq_roundMagnitude le_rfl one_pos (fun x y _ => Int.neg_tdiv x y)
    (fun x y _ => Int.tdiv_neg x y) (fun m n hn => ?_) x hy
  rw [add_zero, Int.tdiv_eq_ediv_of_nonneg (Int.natCast_nonneg m)]
  exact (Rat.floor_intCast_div_natCast m n).symm

/-- The quotient rounded to nearest, from the quotient rounded towards zero and its remainder. -/
def nearestQuotient (x y : Int) : Int :=
  if (x.tmod y).natAbs * 2 < y.natAbs then x.tdiv y
  else if x.sign = y.sign then x.tdiv y + 1 else x.tdiv y - 1

theorem sign_neg_eq_iff {x y : Int} (hx : x ≠ 0) (hy : y ≠ 0) :
    (-x).sign = y.sign ↔ x.sign ≠ y.sign := by
  rcases lt_or_gt_of_ne hx with hx | hx <;> rcases lt_or_gt_of_ne hy with hy | hy <;>
    simp [Int.sign_eq_neg_one_of_neg, Int.sign_eq_one_of_pos, hx, hy]

theorem ne_zero_of_far {x y : Int} (hy : y ≠ 0) (far : ¬ (x.tmod y).natAbs * 2 < y.natAbs) :
    x ≠ 0 := by
  rintro rfl
  simp only [Int.zero_tmod, Int.natAbs_zero] at far
  omega

theorem nearestQuotient_neg (x : Int) {y : Int} (hy : y ≠ 0) :
    nearestQuotient (-x) y = -nearestQuotient x y := by
  simp only [nearestQuotient, Int.neg_tmod, Int.natAbs_neg, Int.neg_tdiv]
  split
  · rfl
  · next far =>
      simp only [sign_neg_eq_iff (ne_zero_of_far hy far) hy, ne_eq, ite_not]
      split <;> omega

theorem nearestQuotient_neg_right (x : Int) {y : Int} (hy : y ≠ 0) :
    nearestQuotient x (-y) = -nearestQuotient x y := by
  simp only [nearestQuotient, Int.tmod_neg, Int.natAbs_neg, Int.tdiv_neg]
  split
  · rfl
  · next far =>
      have flipped := sign_neg_eq_iff hy (ne_zero_of_far hy far)
      simp only [eq_comm (a := x.sign), flipped, ne_eq, ite_not]
      split <;> omega

theorem nearestQuotient_natCast (m : Nat) {n : Nat} (hn : n ≠ 0) :
    nearestQuotient m n = ⌊(m : ℚ) / n + 1 / 2⌋ := by
  have positive : (0 : ℚ) < n := by exact_mod_cast Nat.pos_of_ne_zero hn
  have whole : (m : ℚ) / n = (m / n : Nat) + (m % n : Nat) / n := by
    field_simp
    exact_mod_cast (Nat.div_add_mod m n).symm
  have small : ((m % n : Nat) : ℚ) / n < 1 := by
    rw [div_lt_one positive]
    exact_mod_cast Nat.mod_lt m (Nat.pos_of_ne_zero hn)
  have nonneg : 0 ≤ ((m % n : Nat) : ℚ) / n := by positivity
  have remainder : (Int.tmod m n).natAbs = m % n := by
    rw [Int.natAbs_tmod, Int.natAbs_natCast, Int.natAbs_natCast]
  have quotient : Int.tdiv m n = (m / n : Nat) := by
    rw [Int.tdiv_eq_ediv_of_nonneg (Int.natCast_nonneg m)]
    rfl
  symm
  unfold nearestQuotient
  split
  · next near =>
      rw [remainder, Int.natAbs_natCast] at near
      have half : ((m % n : Nat) : ℚ) / n < 1 / 2 := by
        rw [div_lt_div_iff₀ positive two_pos]
        exact_mod_cast (by omega : m % n * 2 < 1 * n)
      rw [quotient, Int.floor_eq_iff, Int.cast_natCast]
      exact ⟨by linarith, by linarith⟩
  · next far =>
      have hm : (m : Int) ≠ 0 := ne_zero_of_far (by exact_mod_cast hn) far
      have sign : (m : Int).sign = (n : Int).sign := by
        rw [Int.sign_eq_one_of_pos (by omega), Int.sign_eq_one_of_pos (by omega)]
      rw [remainder, Int.natAbs_natCast] at far
      have half : 1 / 2 ≤ ((m % n : Nat) : ℚ) / n := by
        rw [div_le_div_iff₀ two_pos positive]
        exact_mod_cast (by omega : 1 * n ≤ m % n * 2)
      rw [if_pos sign, quotient, Int.floor_eq_iff, Int.cast_add, Int.cast_natCast, Int.cast_one]
      exact ⟨by linarith, by linarith⟩

theorem nearestQuotient_eq_roundMagnitude (x : Int) {y : Int} (hy : y ≠ 0) :
    nearestQuotient x y = roundMagnitude (1 / 2) (x / y) :=
  eq_roundMagnitude (by norm_num) (by norm_num) (fun x _ hy => nearestQuotient_neg x hy)
    (fun x _ hy => nearestQuotient_neg_right x hy) (fun m _ hn => nearestQuotient_natCast m hn) x hy

namespace BinaryOp

/-- How the quotient is rounded. -/
def rounding : BinaryOp → ℚ → Int
  | floorDiv => Int.floor
  | ceilDiv => Int.ceil
  | roundDiv => roundMagnitude (1 / 2)
  | _ => roundMagnitude 0

theorem isRounding_rounding (op : BinaryOp) : IsRounding op.rounding := by
  cases op with
  | floorDiv => exact .floor
  | ceilDiv => exact .ceil
  | roundDiv => exact .roundMagnitude (by norm_num) (by norm_num)
  | _ => exact .roundMagnitude le_rfl one_pos

theorem div?_eq_some {x y p : Int} (h : Wide.div? x y = some p) : y ≠ 0 ∧ p = x.tdiv y := by
  unfold Wide.div? at h
  split at h
  · cases h
  · next nonzero => exact ⟨nonzero, Wide.eq_of_check h⟩

theorem roundedQuotient?_eq_some {x y p : Int} (h : roundedQuotient? x y = some p) :
    y ≠ 0 ∧ p = nearestQuotient x y := by
  simp only [roundedQuotient?, Option.bind_eq_bind, Option.bind_eq_some_iff, Wide.rem?,
    Option.map_eq_some_iff, Option.pure_def, Option.some.injEq] at h
  obtain ⟨q, hq, _, ⟨_, -, rfl⟩, s, hs, t, ht, u, hu, rfl⟩ := h
  obtain ⟨nonzero, rfl⟩ := div?_eq_some hq
  rw [Wide.eq_of_check ht, Wide.eq_of_check hs, Wide.eq_of_check hu]
  refine ⟨nonzero, ?_⟩
  unfold nearestQuotient
  norm_cast

/-- A quotient is the rounded quotient of rational numbers. -/
theorem applyExact_division {op : BinaryOp} {ty : ScalarType} {x y p : Int}
    (division : op.isDivision = true) (h : op.applyExact x y ty = some p) :
    y ≠ 0 ∧ p = op.rounding (x * (y : ℚ)⁻¹) := by
  rw [← div_eq_mul_inv]
  cases op with
  | truncDiv | exactDiv =>
      obtain ⟨nonzero, rfl⟩ := div?_eq_some h
      exact ⟨nonzero, tdiv_eq_roundMagnitude x nonzero⟩
  | floorDiv =>
      obtain ⟨q, hq, rfl⟩ := Option.map_eq_some_iff.mp h
      have nonzero := (div?_eq_some hq).1
      exact ⟨nonzero, (floor_div x nonzero).symm⟩
  | ceilDiv =>
      obtain ⟨q, hq, rfl⟩ := Option.map_eq_some_iff.mp h
      have nonzero := (div?_eq_some hq).1
      refine ⟨nonzero, ?_⟩
      rw [← floor_div (-x) nonzero, rounding, Int.cast_neg, neg_div, Int.floor_neg, neg_neg]
  | roundDiv =>
      obtain ⟨nonzero, rfl⟩ := roundedQuotient?_eq_some h
      exact ⟨nonzero, nearestQuotient_eq_roundMagnitude x nonzero⟩
  | _ => cases division

end BinaryOp

namespace ValueRange

variable {env : NameId → Int} {ty : ScalarType} {op : BinaryOp} {a b : ValueRange} {v x y : Int}

/-- The result at two ends is the rounded product of the first and the weight of the second, which
    leaves the type only upwards. -/
def IsScaled (ty : ScalarType) (f : ℚ → Int) (weight : Int → ℚ) (s t : Int)
    (c : Bound) : Prop :=
  c = .const (f (s * weight t)) ∧ ty.fits (f (s * weight t)) = true ∨
  c = .posInf ∧ ty.overflowUndefined = true ∧ ty.maxValue < f (s * weight t)

/-- Where results are taken modulo the size of the type, an end has no result outside the type. -/
theorem IsScaled.fits {f : ℚ → Int} {weight : Int → ℚ} {s t : Int} {c : Bound}
    (h : IsScaled ty f weight s t c) (wraps : ¬ ty.overflowUndefined = true) :
    ty.fits (f (s * weight t)) = true := by
  rcases h with ⟨-, fits⟩ | ⟨-, undefined, -⟩
  · exact fits
  · exact absurd undefined wraps

/-- A product lies between two products of ends. -/
theorem exists_scaled_corners {weight : Int → ℚ} (rangeA : a.isRange = true)
    (holdsA : a.Holds env ty x)
    (weights :
      weight (b.min.reading env ty) ≤ weight y ∧ weight y ≤ weight (b.max.reading env ty) ∨
      weight (b.max.reading env ty) ≤ weight y ∧ weight y ≤ weight (b.min.reading env ty)) :
    (∃ s ∈ [a.min, a.max], ∃ t ∈ [b.min, b.max],
      (x : ℚ) * weight y ≤ s.reading env ty * weight (t.reading env ty)) ∧
    ∃ s ∈ [a.min, a.max], ∃ t ∈ [b.min, b.max],
      (s.reading env ty : ℚ) * weight (t.reading env ty) ≤ x * weight y := by
  have within : (a.min.reading env ty : ℚ) ≤ x ∧ (x : ℚ) ≤ a.max.reading env ty := by
    exact_mod_cast holdsA.within rangeA
  constructor
  · rcases weights with order | order <;>
    · obtain ⟨s, hs, t, ht, le⟩ := exists_le_corner within order
      simp only [List.mem_cons, List.not_mem_nil, or_false] at hs ht
      rcases hs with rfl | rfl <;> rcases ht with rfl | rfl <;> exact ⟨_, by simp, _, by simp, le⟩
  · rcases weights with order | order <;>
    · obtain ⟨s, hs, t, ht, le⟩ := exists_corner_le within order
      simp only [List.mem_cons, List.not_mem_nil, or_false] at hs ht
      rcases hs with rfl | rfl <;> rcases ht with rfl | rfl <;> exact ⟨_, by simp, _, by simp, le⟩

/-- A rounded product with a weight, where the weights of the ends enclose that of the value. -/
theorem crossProducts_scaled {f : ℚ → Int} (weight : Int → ℚ) (hf : IsRounding f)
    (rangeA : a.isRange = true) (holdsA : a.Holds env ty x)
    (weights : (∀ t ∈ [b.min, b.max], t.isSymbolic = false) →
      weight (b.min.reading env ty) ≤ weight y ∧ weight y ≤ weight (b.max.reading env ty) ∨
      weight (b.max.reading env ty) ≤ weight y ∧ weight y ≤ weight (b.min.reading env ty))
    (results : ∀ s ∈ [a.min, a.max], ∀ t ∈ [b.min, b.max], ∀ c,
      boundBinary? op ty s t = some c →
        IsScaled ty f weight (s.reading env ty) (t.reading env ty) c)
    (defined : ty.overflowUndefined = true → ty.fits (f (x * weight y)) = true) :
    (crossProducts op ty a b).Holds env ty (ty.wrap (f (x * weight y))) := by
  refine crossProducts_holds fun _ numbers => ?_
  obtain ⟨⟨s, hs, t, ht, le⟩, s', hs', t', ht', ge⟩ :=
    exists_scaled_corners rangeA holdsA (weights numbers)
  have le := hf.mono le
  have ge := hf.mono ge
  by_cases fits : ty.fits (f (x * weight y)) = true
  · rw [ScalarType.wrap_of_fits fits]
    rw [ScalarType.fits_iff] at fits
    refine ⟨⟨s, hs, t, ht, fun c result => ?_⟩, ⟨s', hs', t', ht', fun c result => ?_⟩⟩
    · rcases results s hs t ht c result with ⟨rfl, -⟩ | ⟨rfl, -⟩
      · exact le
      · exact fits.2
    · rcases results s' hs' t' ht' c result with ⟨rfl, -⟩ | ⟨rfl, -, beyond⟩
      · exact ge
      · omega
  · -- a result outside the type has a corner outside the type, where there is no answer
    have inside := fun s hs t ht c result =>
      ScalarType.fits_iff.mp ((results s hs t ht c result).fits (mt defined fits))
    rw [ScalarType.fits_iff] at fits
    by_cases high : ty.maxValue < f (x * weight y)
    · have none : ∀ c, boundBinary? op ty s t ≠ some c := by
        intro c result
        have := inside s hs t ht c result
        omega
      exact ⟨⟨s, hs, t, ht, fun c result => absurd result (none c)⟩,
        ⟨s, hs, t, ht, fun c result => absurd result (none c)⟩⟩
    · have none : ∀ c, boundBinary? op ty s' t' ≠ some c := by
        intro c result
        have := inside s' hs' t' ht' c result
        omega
      exact ⟨⟨s', hs', t', ht', fun c result => absurd result (none c)⟩,
        ⟨s', hs', t', ht', fun c result => absurd result (none c)⟩⟩

theorem Proper.end_fits (h : a.Proper ty) {s : Bound} (hs : s ∈ [a.min, a.max]) : s.Fits ty := by
  simp only [List.mem_cons, List.not_mem_nil, or_false] at hs
  rcases hs with rfl | rfl
  · exact h.min_fits
  · exact h.max_fits

/-- A rounded quotient is no further from zero than the dividend. -/
theorem rounded_within {f : ℚ → Int} (hf : IsRounding f) (x : Int) {y : Int} (hy : y ≠ 0) :
    -(x.natAbs : Int) ≤ f (x * (y : ℚ)⁻¹) ∧ f (x * (y : ℚ)⁻¹) ≤ x.natAbs := by
  have small : |(x : ℚ) * (y : ℚ)⁻¹| ≤ |(x : ℚ)| := by
    rw [abs_mul, abs_inv]
    refine mul_le_of_le_one_right (abs_nonneg _) (inv_le_one_of_one_le₀ ?_)
    exact_mod_cast Int.one_le_abs hy
  have bounds := abs_le.mp small
  have magnitude : |(x : ℚ)| = ((x.natAbs : Int) : ℚ) := by
    rw [Int.natCast_natAbs]
    exact_mod_cast rfl
  rw [magnitude] at bounds
  exact ⟨hf.le (by exact_mod_cast bounds.1), hf.ge bounds.2⟩

/-- The rounded quotient by a positive number lies between zero and the dividend. -/
theorem rounded_towards_zero {f : ℚ → Int} (hf : IsRounding f) (x : Int) {w : ℚ} (nonneg : 0 ≤ w)
    (small : w ≤ 1) : Min.min x 0 ≤ f (x * w) ∧ f (x * w) ≤ Max.max x 0 := by
  have zero : f 0 = 0 := by exact_mod_cast hf.fixes 0
  rcases le_or_gt 0 x with positive | negative
  · have positive' : (0 : ℚ) ≤ x := by exact_mod_cast positive
    have low : f 0 ≤ f (x * w) := hf.mono (mul_nonneg positive' nonneg)
    have high := hf.ge (mul_le_of_le_one_right positive' small)
    omega
  · have negative' : (x : ℚ) ≤ 0 := by exact_mod_cast negative.le
    have high : f (x * w) ≤ f 0 := hf.mono (mul_nonpos_of_nonpos_of_nonneg negative' nonneg)
    have low := hf.le (le_mul_of_le_one_right negative' small)
    omega

theorem isRange_of_rangeExcludesZero (h : b.rangeExcludesZero ty = true) : b.isRange = true :=
  (Bool.and_eq_true_iff.mp h).1

theorem pos_or_neg_of_rangeExcludesZero (env : NameId → Int) (hb : b.Proper ty)
    (h : b.rangeExcludesZero ty = true)
    (numbers : ∀ t ∈ [b.min, b.max], t.isSymbolic = false) :
    0 < b.min.reading env ty ∨ b.max.reading env ty < 0 := by
  obtain ⟨interval, zero⟩ := Bool.and_eq_true_iff.mp h
  obtain ⟨low, high⟩ := hb.ends interval
  have bounded : b.isBounded = true := by
    obtain ⟨lo, hi, extent⟩ := exists_inside interval
    simp [isBounded, extent, Extent.isBounded]
  have apart : Bound.inside? ty (.const 0) b.min b.max = some false := by
    simpa [includesZero?, bounded, interval] using zero
  rcases Bound.inside?_eq_false apart with below | above
  · exact .inl (Bound.lt_of_less? env rfl (numbers _ (by simp)) (by simp) low.2 below)
  · exact .inr (Bound.lt_of_less? env (numbers _ (by simp)) rfl high.2 (by simp) above)

/-- The quotient of an end by an end. It leaves the type at most upwards. -/
theorem isScaled_division {s t c : Bound} (division : op.isDivision = true) (hs : s.Fits ty)
    (h : boundBinary? op ty s t = some c) :
    IsScaled ty op.rounding (fun y => (y : ℚ)⁻¹) (s.reading env ty) (t.reading env ty) c := by
  obtain ⟨x, y, hx, hy, result⟩ := boundBinary?_result h
  rw [reading_of_concrete? hx, reading_of_concrete? hy]
  cases result with
  | value exact_ fits =>
      obtain ⟨-, rfl⟩ := BinaryOp.applyExact_division division exact_
      exact .inl ⟨rfl, fits⟩
  | beyond exact_ undefined reason _ _ quotient rounded =>
      obtain ⟨nonzero, rfl⟩ := BinaryOp.applyExact_division division exact_
      obtain ⟨finite, finite'⟩ := rounded (.inl division)
      have outside : ty.fits (op.rounding (x * (y : ℚ)⁻¹)) = false := by
        simpa [finite, finite'] using reason
      have fits := ScalarType.fits_iff.mp (fits_of_concrete? hs hx)
      have ends := ScalarType.minValue_of_signed (ScalarType.signed_of_overflowUndefined undefined)
      have within := (rounded_within op.isRounding_rounding x nonzero).1
      rw [Bool.eq_false_iff, ne_eq, ScalarType.fits_iff] at outside
      exact .inr ⟨quotient division, undefined, by dsimp only; omega⟩

theorem crossProducts_division_holds (division : op.isDivision = true) (ha : a.Proper ty)
    (hb : b.Proper ty) (rangeA : a.isRange = true) (apart : b.rangeExcludesZero ty = true)
    (holdsA : a.Holds env ty x) (holdsB : b.Holds env ty y)
    (h : op.applyExact x y ty = some v)
    (defined : ty.overflowUndefined = true → ty.fits v = true) :
    (crossProducts op ty a b).Holds env ty (ty.wrap v) := by
  obtain ⟨nonzero, rfl⟩ := BinaryOp.applyExact_division division h
  refine crossProducts_scaled (fun y => (y : ℚ)⁻¹) op.isRounding_rounding rangeA
    holdsA (fun numbers => .inr ?_)
    (fun s hs t ht c result => isScaled_division division (ha.end_fits hs) result) defined
  have within : (b.min.reading env ty : ℚ) ≤ y ∧ (y : ℚ) ≤ b.max.reading env ty := by
    exact_mod_cast holdsB.within (isRange_of_rangeExcludesZero apart)
  -- inverses change the order of numbers of one sign
  rcases pos_or_neg_of_rangeExcludesZero env hb apart numbers with positive | negative
  · have positive : (0 : ℚ) < b.min.reading env ty := by exact_mod_cast positive
    exact ⟨inv_anti₀ (positive.trans_le within.1) within.2, inv_anti₀ positive within.1⟩
  · have negative : (b.max.reading env ty : ℚ) < 0 := by exact_mod_cast negative
    have below := within.2.trans_lt negative
    exact ⟨(inv_le_inv_of_neg negative below).mpr within.2,
      (inv_le_inv_of_neg below (within.1.trans_lt below)).mpr within.1⟩

theorem Holds.nonneg (hb : b.isNonnegative ty = true) (hy : ty.fits y = true)
    (holds : b.Holds env ty y) : 0 ≤ y := by
  unfold isNonnegative at hb
  split at hb
  · obtain ⟨interval, low⟩ := Bool.and_eq_true_iff.mp hb
    obtain ⟨lo, concrete, nonneg⟩ := (Option.any_eq_true ..).mp low
    have within := (holds.within interval).1
    rw [reading_of_concrete? concrete] at within
    exact (of_decide_eq_true nonneg).trans within
  · next unsigned =>
      rw [ScalarType.fits_iff, ScalarType.minValue_of_not_signed (Bool.eq_false_iff.mpr unsigned)]
        at hy
      exact hy.1

/-- A result between zero and the dividend. -/
theorem quotientTowardsZero_holds (ha : a.Proper ty) (rangeA : a.isRange = true)
    (holdsA : a.Holds env ty x) (low : Min.min x 0 ≤ v) (high : v ≤ Max.max x 0) :
    (quotientTowardsZero ty a).Holds env ty v := by
  obtain ⟨start, stop⟩ := holdsA.within rangeA
  have zero : (Bound.const 0).Fits ty := ty.fits_zero
  unfold quotientTowardsZero
  dsimp only
  split
  · next least greatest hleast hgreatest =>
      refine holds_finish_inside ⟨?_, ?_⟩
      · split at hleast
        · next order =>
            cases hleast
            have : 0 ≤ a.min.reading env ty := Bound.reading_le_of_greater ha.min_fits zero order
            rw [Bound.reading_const]
            omega
        · next order =>
            cases hleast
            rw [Bound.eq_of_compare_equal order, Bound.reading_const] at start ⊢
            omega
        · next order =>
            cases hleast
            have : a.min.reading env ty ≤ 0 := Bound.reading_le_of_less ha.min_fits zero order
            omega
        · cases hleast
        · cases hleast
      · split at hgreatest
        · next order =>
            cases hgreatest
            have : a.max.reading env ty ≤ 0 := Bound.reading_le_of_less ha.max_fits zero order
            rw [Bound.reading_const]
            omega
        · next order =>
            cases hgreatest
            rw [Bound.eq_of_compare_equal order, Bound.reading_const] at stop ⊢
            omega
        · next order =>
            cases hgreatest
            have : 0 ≤ a.max.reading env ty := Bound.reading_le_of_greater ha.max_fits zero order
            omega
        · cases hgreatest
        · cases hgreatest
  · trivial

/-- A result of at most the magnitude of the dividend. -/
theorem absExtent_holds (rangeA : a.isRange = true) (holdsA : a.Holds env ty x)
    (low : -(x.natAbs : Int) ≤ v) (high : v ≤ x.natAbs) :
    (absExtent ty a).Holds env ty (ty.wrap v) := by
  unfold absExtent
  split
  · next lo hi _ ends =>
      have within := holdsA.within_constBounds? rangeA ends
      dsimp only
      split
      · next fits =>
          simp only [Bool.and_eq_true, ScalarType.fits_iff] at fits
          rw [ScalarType.wrap_of_fits (ScalarType.fits_iff.mpr ⟨by omega, by omega⟩)]
          refine holds_canonical ⟨?_, ?_⟩
          · rw [Bound.reading_const]
            omega
          · rw [Bound.reading_const]
            omega
      · trivial
  · trivial

theorem quotientOfInterval_holds (division : op.isDivision = true) (ha : a.Proper ty)
    (hb : b.Proper ty) (rangeA : a.isRange = true) (hx : ty.fits x = true) (hy : ty.fits y = true)
    (holdsA : a.Holds env ty x) (holdsB : b.Holds env ty y)
    (h : op.applyExact x y ty = some v)
    (defined : ty.overflowUndefined = true → ty.fits v = true) :
    (quotientOfInterval op ty a b).Holds env ty (ty.wrap v) := by
  unfold quotientOfInterval
  split
  · next apart =>
      exact crossProducts_division_holds division ha hb rangeA apart holdsA holdsB h defined
  · obtain ⟨nonzero, rfl⟩ := BinaryOp.applyExact_division division h
    split
    · next nonnegative =>
        have positive : 0 ≤ y := by
          rcases Bool.or_eq_true_iff.mp nonnegative with unsigned | nonnegative
          · rw [ScalarType.fits_iff, ScalarType.minValue_of_not_signed (by simpa using unsigned)]
              at hy
            exact hy.1
          · exact holdsB.nonneg nonnegative hy
        have least : (1 : ℚ) ≤ y := by exact_mod_cast (by omega : 1 ≤ y)
        obtain ⟨low, high⟩ := rounded_towards_zero op.isRounding_rounding x
          (inv_nonneg.mpr (zero_le_one.trans least)) (inv_le_one_of_one_le₀ least)
        have fits : ty.fits (op.rounding (x * (y : ℚ)⁻¹)) = true := by
          have zero := ScalarType.fits_iff.mp ty.fits_zero
          rw [ScalarType.fits_iff] at hx ⊢
          omega
        rw [ScalarType.wrap_of_fits fits]
        exact quotientTowardsZero_holds ha rangeA holdsA low high
    · obtain ⟨low, high⟩ := rounded_within op.isRounding_rounding x nonzero
      exact absExtent_holds rangeA holdsA low high

theorem full_holds (hx : ty.fits x = true) : (full ty).Holds env ty x :=
  ScalarType.fits_iff.mp hx

theorem quotient_holds (division : op.isDivision = true) (ha : a.Proper ty) (hb : b.Proper ty)
    (hx : ty.fits x = true) (hy : ty.fits y = true) (holdsA : a.Holds env ty x)
    (holdsB : b.Holds env ty y) (h : op.applyExact x y ty = some v)
    (defined : ty.overflowUndefined = true → ty.fits v = true) :
    (quotient op ty a b).Holds env ty (ty.wrap v) := by
  unfold quotient
  split
  · next interval =>
      exact quotientOfInterval_holds division ha hb (Bool.and_eq_true_iff.mp interval).1 hx hy
        holdsA holdsB h defined
  · split
    · exact quotientOfInterval_holds division (full_proper ty) hb rfl hx hy (full_holds hx) holdsB
        h defined
    · trivial

end ValueRange

end RangeFlow
