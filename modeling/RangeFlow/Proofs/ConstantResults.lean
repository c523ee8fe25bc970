import RangeFlow.Proofs.BinaryResults

/-! # Results on constants

On two constants the range of an operator is the one constant to which they fold. There are two
exceptions: a remainder is only bounded by the magnitude of the divisor, and nothing is known of a
quotient that leaves a type whose results wrap.
-/

namespace RangeFlow

namespace ValueRange

variable {env : NameId → Int} {ty : ScalarType} {op : BinaryOp} {c e m x y : Int}

@[simp] theorem isAnti_singleton (c : Int) : (singleton c).isAnti = false := rfl

@[simp] theorem isRange_singleton (c : Int) : (singleton c).isRange = true := rfl

@[simp] theorem isBounded_singleton (c : Int) : (singleton c).isBounded = true := rfl

@[simp] theorem isSymbolic_singleton (c : Int) : (singleton c).isSymbolic = false := rfl

@[simp] theorem usesInfinity_singleton (c : Int) : (singleton c).usesInfinity = false := rfl

@[simp] theorem min_singleton (c : Int) : (singleton c).min = .const c := rfl

@[simp] theorem max_singleton (c : Int) : (singleton c).max = .const c := rfl

@[simp] theorem constBounds?_singleton (ty : ScalarType) (c : Int) :
    (singleton c).constBounds? ty = some (c, c) := rfl

@[simp] theorem splitAnti?_singleton (ty : ScalarType) (c : Int) :
    splitAnti? ty (singleton c) = none := rfl

@[simp] theorem isNonnegative_singleton (hx : ty.fits x = true) :
    (singleton x).isNonnegative ty = decide (0 ≤ x) := by
  cases signed : ty.signed with
  | true => simp [isNonnegative, signed, Bound.concrete?]
  | false =>
      rw [ScalarType.fits_iff, ScalarType.minValue_of_not_signed signed] at hx
      simp [isNonnegative, signed, hx.1, isUndefined, singleton, range, ofExtent]

@[simp] theorem rangeExcludesZero_singleton (ty : ScalarType) (c : Int) :
    (singleton c).rangeExcludesZero ty = decide (c ≠ 0) := by
  have apart : Bound.inside? ty (.const 0) (.const c) (.const c) = some (decide (c = 0)) := by
    rcases Int.lt_trichotomy c 0 with negative | rfl | positive
    · simp [Bound.inside?, Bound.less?, Bound.concrete?, negative, Int.not_lt.mpr negative.le,
        negative.ne]
    · rfl
    · simp [Bound.inside?, Bound.less?, Bound.concrete?, positive, positive.ne']
  simp [rangeExcludesZero, includesZero?, apart]

theorem singleton_eq_of_holds (h : (singleton m).Holds env ty c) : singleton m = singleton c := by
  have same : m = c := Int.le_antisymm h.1 h.2
  rw [same]

theorem singleton_holds (env : NameId → Int) (ty : ScalarType) (c : Int) :
    (singleton c).Holds env ty c :=
  ⟨Int.le_refl _, Int.le_refl _⟩

theorem not_isMin_and_isMax {lo hi : Int} (part : ty.minValue < lo ∨ hi < ty.maxValue) :
    ((Bound.const lo).isMin ty && (Bound.const hi).isMax ty) = false := by
  rw [Bool.eq_false_iff, ne_eq, Bool.and_eq_true, Extent.isMin_const, Extent.isMax_const]
  omega

/-- Two constants in order that are not both ends of the type are the ends of a range. -/
theorem canonical_consts {lo hi : Int} (order : lo ≤ hi)
    (part : ty.minValue < lo ∨ hi < ty.maxValue) :
    canonical ty (.inside (.const lo) (.const hi)) = range (.const lo) (.const hi) := by
  have ordered : (Extent.inside (.const lo) (.const hi)).canonical ty =
      ((Extent.inside (.const lo) (.const hi)).preferRange ty).dropFull ty :=
    Extent.canonical_of_le (fun _ => 0) rfl rfl order
  simp [canonical, ordered, Extent.preferRange, Extent.dropFull, not_isMin_and_isMax part, range]

theorem finish_consts {lo hi : Int} (order : lo ≤ hi)
    (part : ty.minValue < lo ∨ hi < ty.maxValue) :
    finish ty (.inside (.const lo) (.const hi)) = range (.const lo) (.const hi) := by
  have ordered : (ValueOrder.ofInts lo hi).isLe = true := by
    rcases Int.lt_or_eq_of_le order with less | same
    · simp [ValueOrder.ofInts, less, ValueOrder.isLe]
    · simp [ValueOrder.ofInts, same, ValueOrder.isLe]
  simp [finish, Extent.min, Extent.max, Bound.isInfinity, not_isMin_and_isMax part, ordered,
    canonical_consts order part]

/-- No number is both ends of a type. -/
theorem apart_from_an_end (ty : ScalarType) (m : Int) : ty.minValue < m ∨ m < ty.maxValue := by
  have apart := ty.minValue_lt_maxValue
  omega

theorem canonical_singleton (ty : ScalarType) (m : Int) :
    canonical ty (.inside (.const m) (.const m)) = singleton m :=
  canonical_consts (Int.le_refl m) (apart_from_an_end ty m)

theorem finish_singleton (ty : ScalarType) (m : Int) :
    finish ty (.inside (.const m) (.const m)) = singleton m :=
  finish_consts (Int.le_refl m) (apart_from_an_end ty m)

/-- The exact result on two constants is found where it lies in the type. -/
theorem boundBinary?_const (h : op.applyExact x y ty = some e) (fits : ty.fits e = true) :
    boundBinary? op ty (.const x) (.const y) = some (.const e) := by
  have zero : op = .mul → x = 0 ∨ y = 0 → e = 0 := by
    rintro rfl
    rw [Wide.eq_of_check h]
    rintro (rfl | rfl)
    · exact Int.zero_mul y
    · exact Int.mul_zero x
  simp only [boundBinary?, Bound.concrete?, Bound.isInfinity, Option.bind_eq_bind,
    Option.bind_some, h, fits]
  split
  · rfl
  · split
    · next product =>
        simp only [Bool.and_eq_true, Bool.or_eq_true, beq_iff_eq, Bool.not_false, and_true]
          at product
        rw [zero product.1 product.2]
    · rfl

/-- Where results wrap, there is none on two constants outside the type. -/
theorem boundBinary?_const_of_not_fits (h : op.applyExact x y ty = some e)
    (wraps : ty.overflowUndefined = false) (outside : ty.fits e = false) :
    boundBinary? op ty (.const x) (.const y) = none := by
  simp [boundBinary?, Bound.concrete?, h, wraps, outside]

theorem crossProducts_singleton (op : BinaryOp) (ty : ScalarType) (x y : Int) :
    crossProducts op ty (singleton x) (singleton y) =
      match boundBinary? op ty (.const x) (.const y) with
      | some bound => finish ty (.inside bound bound)
      | none => varying := by
  cases result : boundBinary? op ty (.const x) (.const y) with
  | none =>
      simp [crossProducts, singleton, range, ofExtent, ValueRange.min, ValueRange.max, Extent.min,
        Extent.max, result]
  | some bound =>
      simp [crossProducts, singleton, range, ofExtent, ValueRange.min, ValueRange.max, Extent.min,
        Extent.max, result]

theorem crossProducts_eq_singleton (h : op.applyExact x y ty = some e) (fits : ty.fits e = true) :
    crossProducts op ty (singleton x) (singleton y) = singleton e := by
  rw [crossProducts_singleton, boundBinary?_const h fits]
  exact finish_singleton ty e

theorem sum_singletons (add : Bool) (ty : ScalarType) (x y : Int)
    (defined : ty.wraps = false → ty.fits (if add then x + y else x - y) = true) :
    sum add ty (singleton x) (singleton y) =
      singleton (ty.wrap (if add then x + y else x - y)) := by
  have ends : sumEnds add (x, x) (y, y) =
      (if add then x + y else x - y, if add then x + y else x - y) := by
    cases add <;> rfl
  generalize (if add then x + y else x - y) = e at *
  have result : sum add ty (singleton x) (singleton y) =
      if ty.wraps then finish ty (.inside (.const (ty.wrap e)) (.const (ty.wrap e)))
      else finish ty (.inside (saturate ty e) (saturate ty e)) := by
    cases add <;>
      simp [sum, singleton, range, ofExtent, constBounds?, Extent.constBounds?, Extent.isBounded,
        Extent.min, Extent.max, Bound.concrete?, ValueRange.min, ValueRange.max, ends, wrapEnds?]
  rw [result]
  cases wraps : ty.wraps with
  | true => exact finish_singleton ty _
  | false =>
      have fits := defined wraps
      have inside : saturate ty e = .const e := by
        rw [ScalarType.fits_iff] at fits
        simp [saturate, sideOf, Int.not_lt.mpr fits.1, Int.not_lt.mpr fits.2]
      rw [ScalarType.wrap_of_fits fits, inside]
      exact finish_singleton ty e

/-- A constant that is moved closer to zero is at most half the size of the type away from it. -/
theorem exists_recentre_const (hx : ty.fits x = true) :
    ∃ x', recentre ty (x, x) = (x', x') ∧ 2 * x'.natAbs ≤ ty.size := by
  have size := ty.size_eq
  rw [ScalarType.fits_iff] at hx
  cases signed : ty.signed with
  | true =>
      refine ⟨x, by simp [recentre, signed], ?_⟩
      have ends := ScalarType.minValue_of_signed signed
      omega
  | false =>
      have zero := ScalarType.minValue_of_not_signed signed
      by_cases far : ty.size < x + x
      · refine ⟨x - ty.size, by simp [recentre, signed, far], ?_⟩
        omega
      · refine ⟨x, by simp [recentre, signed, far], ?_⟩
        omega

theorem check_of_small {p : Int} (small : p.natAbs < 2 ^ 127) : Wide.check p = some p := by
  have least : Wide.least = -(2 ^ 127 : Int) := rfl
  have greatest : Wide.greatest = (2 ^ 127 : Int) - 1 := rfl
  have fits : Wide.fits p = true := by
    simp only [Wide.fits, least, greatest, Bool.and_eq_true, decide_eq_true_eq]
    omega
  simp [Wide.check, fits]

theorem size_le (ty : ScalarType) : ty.size ≤ 2 ^ 64 := by
  have size : twoPow ty.precision ≤ 2 ^ 64 :=
    Nat.pow_le_pow_right (by decide) ty.precision_le
  unfold ScalarType.size
  omega

/-- The numbers of a type are found in a wide word. -/
theorem check_of_fits (fits : ty.fits e = true) : Wide.check e = some e := by
  have size := ty.size_eq
  have bound := size_le ty
  have low := ty.minValue_nonpos
  have high := ty.maxValue_nonneg
  rw [ScalarType.fits_iff] at fits
  exact check_of_small (by omega)

/-- Numbers that are at most half the size of a type away from zero have a product. -/
theorem mul?_of_half {x' y' : Int} (hx : 2 * x'.natAbs ≤ ty.size) (hy : 2 * y'.natAbs ≤ ty.size) :
    Wide.mul? x' y' = some (x' * y') := by
  have size := size_le ty
  have half : x'.natAbs ≤ 2 ^ 63 ∧ y'.natAbs ≤ 2 ^ 63 := by omega
  have product : (x' * y').natAbs ≤ 2 ^ 63 * 2 ^ 63 := by
    rw [Int.natAbs_mul]
    exact Nat.mul_le_mul half.1 half.2
  exact check_of_small (by omega)

theorem wrappingProduct_consts (hx : ty.fits x = true) (hy : ty.fits y = true) :
    ∃ m, wrappingProduct ty (x, x) (y, y) = singleton m := by
  obtain ⟨x', recentredX, halfX⟩ := exists_recentre_const hx
  obtain ⟨y', recentredY, halfY⟩ := exists_recentre_const hy
  have product := mul?_of_half halfX halfY
  have products : endProducts? (x', x') (y', y') =
      some [x' * y', x' * y', x' * y', x' * y'] := by
    simp [endProducts?, product]
  have wide : Wide.least ≤ x' * y' ∧ x' * y' ≤ Wide.greatest := by
    have fits : Wide.fits (x' * y') = true := by
      unfold Wide.mul? Wide.check at product
      split at product
      · assumption
      · cases product
    simpa [Wide.fits] using fits
  have positive := ty.size_pos
  refine ⟨ty.wrap (x' * y'), ?_⟩
  simp only [wrappingProduct, recentredX, recentredY, products, List.foldl_cons, List.foldl_nil,
    Int.min_self, Int.max_self, Int.min_eq_right wide.2, Int.max_eq_right wide.1]
  rw [if_neg (by omega)]
  exact canonical_singleton ty _

/-- A product of constants is a constant, whether or not it wraps. -/
theorem product_singletons (integral : ty.isIntegral = true) (hx : ty.fits x = true)
    (hy : ty.fits y = true) (defined : ty.overflowUndefined = true → ty.fits (x * y) = true) :
    product ty (singleton x) (singleton y) = singleton (ty.wrap (x * y)) := by
  have single : ∃ m, product ty (singleton x) (singleton y) = singleton m := by
    cases wraps : ty.wraps with
    | true =>
        obtain ⟨m, result⟩ := wrappingProduct_consts hx hy
        refine ⟨m, Eq.trans ?_ result⟩
        simp [product, wraps]
    | false =>
        have fits := defined (ScalarType.overflowUndefined_of_not_wraps integral wraps)
        have wide : BinaryOp.mul.applyExact x y ty = some (x * y) :=
          check_of_fits fits
        refine ⟨x * y, Eq.trans ?_ (crossProducts_eq_singleton wide fits)⟩
        simp [product, wraps]
  obtain ⟨m, result⟩ := single
  rw [result]
  refine singleton_eq_of_holds (?_ : (singleton m).Holds (fun _ => 0) ty _)
  rw [← result]
  exact product_holds integral (singleton_proper hx) (singleton_proper hy) rfl rfl rfl rfl
    (singleton_holds _ _ _) (singleton_holds _ _ _) defined

/-! ## Shifts -/

/-- A left shift of a constant wraps, also where overflow is undefined. -/
theorem shl_singletons (integral : ty.isIntegral = true) (hx : ty.fits x = true)
    (h : BinaryOp.shl.applyExact x y ty = some e) :
    shift true ty (singleton x) (singleton y) = singleton (ty.wrap e) := by
  obtain ⟨n, amount, -⟩ := Option.bind_eq_some_iff.mp h
  obtain ⟨⟨low, high⟩, rfl⟩ := BinaryOp.shiftAmount_eq_some amount
  have moved : shift true ty (singleton x) (singleton y) =
      product ty.wrapping (singleton x) (singleton (ty.wrapping.wrap (twoPow y.toNat))) := by
    simp [shift, constBounds?_singleton, isRange_singleton, usesInfinity_singleton,
      Int.not_lt.mpr low, Int.not_le.mpr high]
  have wrapped : product ty.wrapping (singleton x)
      (singleton (ty.wrapping.wrap (twoPow y.toNat))) =
        singleton (ty.wrapping.wrap (x * ty.wrapping.wrap (twoPow y.toNat))) := by
    refine product_singletons (ty.wrapping_isIntegral.trans integral)
      ((ty.fits_wrapping x).trans hx) (ty.wrapping.wrap_fits _) fun undefined => ?_
    rw [ty.wrapping_overflowUndefined] at undefined
    cases undefined
  rw [moved, wrapped, ty.wrapping.wrap_mul_wrap, ty.wrapping_wrap, BinaryOp.applyExact_shl h]

theorem shr_singletons (hx : ty.fits x = true) (h : BinaryOp.shr.applyExact x y ty = some e) :
    shift false ty (singleton x) (singleton y) = singleton (ty.wrap e) := by
  obtain ⟨n, amount, -⟩ := Option.map_eq_some_iff.mp h
  obtain ⟨⟨low, high⟩, rfl⟩ := BinaryOp.shiftAmount_eq_some amount
  have fits : ty.fits e = true := by
    rw [BinaryOp.applyExact_shr h]
    exact fits_shiftRight hx _
  have moved : shift false ty (singleton x) (singleton y) =
      crossProducts .shr ty (singleton x) (singleton y) := by
    simp [shift, constBounds?_singleton, isRange_singleton, usesInfinity_singleton,
      Int.not_lt.mpr low, Int.not_le.mpr high]
  rw [moved, crossProducts_eq_singleton h fits, ScalarType.wrap_of_fits fits]

/-! ## Quotients and remainders -/

/-- A quotient by a number below minus one is at most half as far from zero. -/
theorem rounded_le_maxValue {f : ℚ → Int} (hf : IsRounding f) (signed : ty.signed = true)
    (hy : ty.fits y = true) (far : y < -1) :
    f (ty.minValue * (y : ℚ)⁻¹) ≤ ty.maxValue := by
  have ends := ScalarType.minValue_of_signed signed
  rw [ScalarType.fits_iff] at hy
  have twice : ty.maxValue * y ≤ ty.minValue := by nlinarith
  have negative : (y : ℚ) < 0 := by exact_mod_cast (show y < 0 by omega)
  refine hf.ge ?_
  rw [← div_eq_mul_inv, div_le_iff_of_neg negative]
  exact_mod_cast twice

/-- Only the least value, divided by minus one, has a quotient outside its type. -/
theorem fits_quotient (division : op.isDivision = true) (hx : ty.fits x = true)
    (hy : ty.fits y = true) (h : op.applyExact x y ty = some e)
    (inside : ¬ (x = ty.minValue ∧ y = -1)) : ty.fits e = true := by
  obtain ⟨nonzero, rfl⟩ := BinaryOp.applyExact_division division h
  have rounds := op.isRounding_rounding
  have within := rounded_within rounds x nonzero
  have zero := ScalarType.fits_iff.mp ty.fits_zero
  have bounds := ScalarType.fits_iff.mp hx
  rw [ScalarType.fits_iff]
  rcases Int.lt_or_gt_of_ne nonzero with negative | positive
  · have signed : ty.signed = true := signed_of_neg hy negative
    have ends := ScalarType.minValue_of_signed signed
    refine ⟨by omega, ?_⟩
    by_cases least : x = ty.minValue
    · subst least
      exact rounded_le_maxValue rounds signed hy (by omega)
    · omega
  · have least : (1 : ℚ) ≤ y := by exact_mod_cast positive
    have towards := rounded_towards_zero rounds x (inv_nonneg.mpr (zero_le_one.trans least))
      (inv_le_one_of_one_le₀ least)
    omega

theorem quotient_singletons (nonzero : y ≠ 0) :
    quotient op ty (singleton x) (singleton y) =
      crossProducts op ty (singleton x) (singleton y) := by
  simp [quotient, quotientOfInterval, isRange_singleton, isSymbolic_singleton,
    rangeExcludesZero_singleton, nonzero]

/-- The range of a remainder has the sign of the dividend. Only its magnitude is bounded, by the
    divisor, and not where that is the least value. -/
theorem remainder_singletons (hx : ty.fits x = true) (hy : ty.fits y = true) (nonzero : y ≠ 0) :
    remainder ty (singleton x) (singleton y) =
      if y = ty.minValue then varying
      else range (.const (if x < 0 then -((y.natAbs : Int) - 1) else 0))
        (.const (y.natAbs - 1)) := by
  have limit : remainderLimit (y, y) = y.natAbs - 1 := by
    simp only [remainderLimit]
    omega
  have least : (Bound.const y).isMin ty = decide (y = ty.minValue) := by
    rw [Bool.eq_iff_iff, Extent.isMin_const, decide_eq_true_eq]
  have sides : (!ty.signed || (singleton x).isNonnegative ty) = decide (¬ x < 0) := by
    rw [isNonnegative_singleton hx]
    cases signed : ty.signed with
    | true => simp
    | false =>
        rw [ScalarType.fits_iff, ScalarType.minValue_of_not_signed signed] at hx
        simp [hx.1]
  have order : (if x < 0 then -((y.natAbs : Int) - 1) else 0) ≤ y.natAbs - 1 := by
    split <;> omega
  split
  · next lowest =>
      have least : (Bound.const y).isMin ty = true := least.trans (decide_eq_true lowest)
      simp [remainder, least]
  · next inside =>
      have part : (y.natAbs : Int) - 1 < ty.maxValue := by
        have bounds := ScalarType.fits_iff.mp hy
        by_cases negative : y < 0
        · have ends := ScalarType.minValue_of_signed (signed_of_neg hy negative)
          omega
        · omega
      rw [← finish_consts order (.inr part)]
      simp only [remainder, rangeExcludesZero_singleton, ne_eq, nonzero, min_singleton, least,
        inside, constBounds?_singleton, limit, sides, not_false_eq_true, decide_true, decide_false,
        Bool.not_false, Bool.and_true, decide_eq_true_eq, ite_not]

/-! ## Extrema and bitwise operators -/

theorem min_singletons (ty : ScalarType) (x y : Int) :
    extremum true ty (singleton x) (singleton y) = singleton (Min.min x y) := by
  have lesser : lesser? ty (.const x) (.const y) = some (.const (Min.min x y)) := by
    simp only [lesser?, Bound.compare_const, ValueOrder.ofInts]
    grind
  simp [extremum, extremumEnds?, lesser, finish_singleton]

theorem max_singletons (ty : ScalarType) (x y : Int) :
    extremum false ty (singleton x) (singleton y) = singleton (Max.max x y) := by
  have greater : greater? ty (.const x) (.const y) = some (.const (Max.max x y)) := by
    simp only [greater?, Bound.compare_const, ValueOrder.ofInts]
    grind
  simp [extremum, extremumEnds?, greater, finish_singleton]

/-- Every bit of a constant is known. -/
theorem knownBits_singleton (ty : ScalarType) (x : Int) :
    (singleton x).knownBits ty = ⟨ty.toBits x, ty.toBits x, true⟩ := by
  have whole : ty.toBits x &&& ty.mask = ty.toBits x := by
    have low := Nat.and_two_pow_sub_one_eq_mod (ty.toBits x) ty.precision
    exact low.trans (Nat.mod_eq_of_lt (ty.toBits_lt x))
  have sign : 0 ≤ x ∨ x < 0 := by omega
  simp [knownBits, KnownBits.between, sign, lowMask, whole]

theorem bitAnd_singletons (hx : ty.fits x = true) (hy : ty.fits y = true) :
    bitwise .bitAnd ty (singleton x) (singleton y) = singleton (ty.wrap (Wide.and x y)) := by
  obtain ⟨low, high⟩ := andEnds_spec hx hy (singleton_holds (fun _ => 0) ty x)
    (singleton_holds (fun _ => 0) ty y) _ rfl
  rw [knownBits_singleton, knownBits_singleton] at low high
  have most := Int.le_antisymm low (high (Int.le_refl _))
  have least : (andEnds ty (singleton x) (singleton y)).1 =
      ty.ofBits (ty.toBits x &&& ty.toBits y) := by
    simp [andEnds, knownBits_singleton]
  rw [ty.wrap_eq_ofBits, ty.toBits_and]
  simp only [bitwise, least, most]
  exact finish_singleton ty _

theorem bitOr_singletons (hx : ty.fits x = true) (hy : ty.fits y = true) :
    bitwise .bitOr ty (singleton x) (singleton y) = singleton (ty.wrap (Wide.or x y)) := by
  obtain ⟨low, high⟩ := orEnds_spec hx hy (singleton_holds (fun _ => 0) ty x)
    (singleton_holds (fun _ => 0) ty y) _ rfl
  rw [knownBits_singleton, knownBits_singleton] at low high
  have least := Int.le_antisymm (high (Int.le_refl _)) low
  have most : (orEnds ty (singleton x) (singleton y)).2 =
      ty.ofBits (ty.toBits x ||| ty.toBits y) := by
    simp [orEnds, knownBits_singleton]
  rw [ty.wrap_eq_ofBits, ty.toBits_or]
  simp only [bitwise, least, most]
  exact finish_singleton ty _

theorem xorEnds_singletons (ty : ScalarType) (x y : Int) :
    xorEnds ty (singleton x) (singleton y) =
      (ty.ofBits (ty.toBits x ^^^ ty.toBits y), ty.ofBits (ty.toBits x ^^^ ty.toBits y)) := by
  have inside : ∀ x i, (ty.toBits x).testBit i = true → i < ty.precision :=
    fun x _ => ScalarType.lt_precision_of_testBit (ty.toBits_lt x)
  simp only [xorEnds, knownBits_singleton, Prod.mk.injEq]
  constructor
  all_goals
    congr 1
    refine Nat.eq_of_testBit_eq fun i => ?_
    have insideX := inside x i
    have insideY := inside y i
    simp only [Nat.testBit_or, Nat.testBit_and, Nat.testBit_xor, ty.testBit_mask]
    grind

theorem bitXor_singletons (ty : ScalarType) (x y : Int) :
    bitwise .bitXor ty (singleton x) (singleton y) = singleton (ty.wrap (Wide.xor x y)) := by
  rw [ty.wrap_eq_ofBits, ty.toBits_xor]
  simp only [bitwise, xorEnds_singletons]
  rw [if_pos (by omega)]
  exact finish_singleton ty _

/-! ## All operators -/

/-- A folded result is the exact one, wrapped. Except for a left shift it is never outside a type
    in which overflow is undefined. -/
theorem fold_exact (folds : op.fold x y ty = some c) : ∃ e, op.applyExact x y ty = some e ∧
    c = ty.wrap e ∧ (op ≠ .shl → ty.fits e = true ∨ ty.overflowUndefined = false) := by
  obtain ⟨e, exact_, wrapped⟩ := BinaryOp.fold_eq_some folds
  refine ⟨e, exact_, wrapped, fun other => ?_⟩
  cases fits : ty.fits e with
  | true => exact .inl rfl
  | false =>
      have wraps : ty.wraps = true := by
        have outcome : ty.wraps = true ∧ ty.wrap e = c := by
          simpa [BinaryOp.fold, exact_, fits, other] using folds
        exact outcome.1
      exact .inr (by simp [ScalarType.overflowUndefined, wraps])

/-- The least value divided by minus one is no value of its type. -/
theorem not_fits_quotient (division : op.isDivision = true) (hy : ty.fits (-1) = true)
    (h : op.applyExact ty.minValue (-1) ty = some e) : ty.fits e = false := by
  obtain ⟨-, rfl⟩ := BinaryOp.applyExact_division division h
  have ends := ScalarType.minValue_of_signed (signed_of_neg hy (by decide))
  have opposite : op.rounding (ty.minValue * ((-1 : Int) : ℚ)⁻¹) = -ty.minValue := by
    have fixed := op.isRounding_rounding.fixes (-ty.minValue)
    rw [← fixed]
    congr 1
    push_cast
    norm_num
  rw [Bool.eq_false_iff, ne_eq, ScalarType.fits_iff, opposite]
  omega

/-- The range of a quotient is the quotient, except for the least value divided by minus one in a
    type whose results wrap: there nothing is known. -/
theorem division_singletons (division : op.isDivision = true) (hx : ty.fits x = true)
    (hy : ty.fits y = true) (h : op.applyExact x y ty = some e)
    (defined : ty.fits e = true ∨ ty.overflowUndefined = false) :
    quotient op ty (singleton x) (singleton y) =
      if x = ty.minValue ∧ y = -1 then varying else singleton (ty.wrap e) := by
  rw [quotient_singletons (BinaryOp.applyExact_division division h).1]
  split
  · next least =>
      obtain ⟨rfl, rfl⟩ := least
      have outside := not_fits_quotient division hy h
      have wraps := defined.resolve_left (by simp [outside])
      rw [crossProducts_singleton, boundBinary?_const_of_not_fits h wraps outside]
  · next inside =>
      have fits := fits_quotient division hx hy h inside
      rw [crossProducts_eq_singleton h fits, ScalarType.wrap_of_fits fits]

/-- An operator other than a quotient or a remainder gives the constant to which its operands
    fold. -/
theorem integerBinary_singletons (integral : ty.isIntegral = true) (hx : ty.fits x = true)
    (hy : ty.fits y = true) (number : op ≠ .pointerPlus) (rest : op ≠ .truncMod)
    (exact : op.isDivision = false) (h : op.applyExact x y ty = some e)
    (defined : op ≠ .shl → ty.overflowUndefined = true → ty.fits e = true) :
    integerBinary op ty (singleton x) (singleton y) = singleton (ty.wrap e) := by
  cases op with
  | add =>
      obtain rfl : e = x + y := Wide.eq_of_check h
      exact sum_singletons true ty x y fun wraps =>
        defined (by decide) (ScalarType.overflowUndefined_of_not_wraps integral wraps)
  | sub =>
      obtain rfl : e = x - y := Wide.eq_of_check h
      exact sum_singletons false ty x y fun wraps =>
        defined (by decide) (ScalarType.overflowUndefined_of_not_wraps integral wraps)
  | mul =>
      obtain rfl : e = x * y := Wide.eq_of_check h
      exact product_singletons integral hx hy (defined (by decide))
  | shl => exact shl_singletons integral hx h
  | shr => exact shr_singletons hx h
  | min =>
      cases h
      rw [ScalarType.wrap_of_fits (fits_min hx hy)]
      exact min_singletons ty x y
  | max =>
      cases h
      rw [ScalarType.wrap_of_fits (fits_max hx hy)]
      exact max_singletons ty x y
  | bitAnd =>
      cases h
      exact bitAnd_singletons hx hy
  | bitOr =>
      cases h
      exact bitOr_singletons hx hy
  | bitXor =>
      cases h
      exact bitXor_singletons ty x y
  | truncDiv | floorDiv | ceilDiv | roundDiv | exactDiv => cases exact
  | truncMod => cases rest rfl
  | pointerPlus => cases number rfl

/-- On two constants that fold to a constant, the range of an operator is that constant. A
    remainder is only bounded by the divisor, and nothing is known of the least value divided by
    minus one, nor of a remainder by the least value. -/
theorem binary_singletons (integral : ty.isIntegral = true) (hx : ty.fits x = true)
    (hy : ty.fits y = true) (number : op ≠ .pointerPlus) (folds : op.fold x y ty = some c) :
    binary op ty (singleton x) (singleton y) =
      if op = .truncMod then
        if y = ty.minValue then varying
        else range (.const (if x < 0 then -((y.natAbs : Int) - 1) else 0)) (.const (y.natAbs - 1))
      else if op.isDivision = true ∧ x = ty.minValue ∧ y = -1 then varying
      else singleton c := by
  obtain ⟨e, exact_, rfl, defined⟩ := fold_exact folds
  have whole : binary op ty (singleton x) (singleton y) =
      integerBinary op ty (singleton x) (singleton y) := by
    rw [binary_of_isIntegral integral]
    simp [binaryOfSplitRight]
  rw [whole]
  by_cases rest : op = .truncMod
  · subst rest
    rw [if_pos rfl]
    obtain ⟨q, divides, -⟩ := Option.map_eq_some_iff.mp exact_
    exact remainder_singletons hx hy (BinaryOp.div?_eq_some divides).1
  · rw [if_neg rest]
    cases division : op.isDivision with
    | true =>
        have quotient_ : integerBinary op ty (singleton x) (singleton y) =
            quotient op ty (singleton x) (singleton y) := by
          cases op <;> first | rfl | cases division
        have other : op ≠ .shl := by
          rintro rfl
          cases division
        rw [quotient_, division_singletons division hx hy exact_ (defined other)]
        simp
    | false =>
        have fits : op ≠ .shl → ty.overflowUndefined = true → ty.fits e = true := by
          intro other undefined
          exact (defined other).resolve_right (by simp [undefined])
        rw [integerBinary_singletons integral hx hy number rest division exact_ fits]
        simp

/-- A left shift that leaves its type, a remainder, and a quotient that leaves its type. -/
theorem binary_singletons_eight :
    binary .shl (.int ⟨8, eight_bits⟩ .signed) (singleton 100) (singleton 1) = singleton (-56) ∧
    binary .truncMod (.int ⟨8, eight_bits⟩ .signed) (singleton (-7)) (singleton 3) =
      range (.const (-2)) (.const 2) ∧
    binary .truncDiv (.int ⟨8, eight_bits⟩ .signedWrapping) (singleton (-128)) (singleton (-1)) =
      varying :=
  ⟨binary_singletons rfl rfl rfl (by decide) (c := -56) rfl,
    binary_singletons rfl rfl rfl (by decide) (c := -1) rfl,
    binary_singletons rfl rfl rfl (by decide) (c := -128) rfl⟩

/-- Neither a remainder nor a quotient that wraps is always as exact as the constant to which it
    folds. -/
theorem binary_coarser_than_fold :
    (BinaryOp.truncMod.fold 7 3 (.int ⟨8, eight_bits⟩ .signed) = some 1 ∧
      binary .truncMod (.int ⟨8, eight_bits⟩ .signed) (singleton 7) (singleton 3) ≠
        singleton 1) ∧
    (BinaryOp.truncDiv.fold (-128) (-1) (.int ⟨8, eight_bits⟩ .signedWrapping) = some (-128) ∧
      binary .truncDiv (.int ⟨8, eight_bits⟩ .signedWrapping) (singleton (-128)) (singleton (-1)) ≠
        singleton (-128)) := by
  decide

end ValueRange

end RangeFlow
