import RangeFlow.Proofs.Quotients

/-! # Shifts

A shift by an unknown amount lies between shifts by the least and the greatest amount. A left shift
by one amount is a product that is always taken modulo the size of the type, also where overflow is
undefined.
-/

namespace RangeFlow

namespace ScalarType

variable (ty : ScalarType)

@[simp] theorem wrapping_minValue : ty.wrapping.minValue = ty.minValue := by
  cases ty with
  | int bits sign => cases sign <;> rfl
  | bool | ptr | float => rfl

@[simp] theorem wrapping_maxValue : ty.wrapping.maxValue = ty.maxValue := by
  cases ty with
  | int bits sign => cases sign <;> rfl
  | bool | ptr | float => rfl

@[simp] theorem wrapping_size : ty.wrapping.size = ty.size := by
  rw [size_eq, size_eq, wrapping_minValue, wrapping_maxValue]

@[simp] theorem wrapping_signed : ty.wrapping.signed = ty.signed := by
  cases ty with
  | int bits sign => cases sign <;> rfl
  | bool | ptr | float => rfl

@[simp] theorem wrapping_wrap (x : Int) : ty.wrapping.wrap x = ty.wrap x := by
  simp [wrap]

@[simp] theorem wrapping_isIntegral : ty.wrapping.isIntegral = ty.isIntegral := by
  cases ty with
  | int bits sign => cases sign <;> rfl
  | bool | ptr | float => rfl

/-- A product may be taken with a factor that is already wrapped. -/
theorem wrap_mul_wrap (x y : Int) : ty.wrap (x * ty.wrap y) = ty.wrap (x * y) := by
  refine wrap_eq_of_emod_eq ?_
  rw [Int.mul_emod, Int.mul_emod x y, ty.wrap_emod]

theorem wrapping_overflowUndefined : ty.wrapping.overflowUndefined = false := by
  cases ty with
  | int bits sign => cases sign <;> rfl
  | bool | ptr | float => rfl

end ScalarType

@[simp] theorem Bound.reading_wrapping (env : NameId → Int) (ty : ScalarType) (b : Bound) :
    b.reading env ty.wrapping = b.reading env ty := by
  cases b with
  | negInf => exact ty.wrapping_minValue
  | posInf => exact ty.wrapping_maxValue
  | const | symbolic => rfl

theorem ValueRange.holds_wrapping {env : NameId → Int} {ty : ScalarType} {vr : ValueRange}
    {v : Int} : vr.Holds env ty.wrapping v ↔ vr.Holds env ty v := by
  obtain ⟨extent, equiv⟩ := vr
  cases extent <;> simp [ValueRange.Holds, Extent.Holds]

theorem Bound.Fits.wrapping {ty : ScalarType} {b : Bound} (h : b.Fits ty) :
    b.Fits ty.wrapping := by
  cases b with
  | const c => exact (ty.fits_wrapping c).trans h
  | negInf | symbolic | posInf => trivial

theorem ValueRange.Proper.wrapping {ty : ScalarType} {vr : ValueRange} (h : vr.Proper ty) :
    vr.Proper ty.wrapping := by
  obtain ⟨extent, equiv⟩ := vr
  cases (h : extent.Proper ty) with
  | undefined => exact .undefined
  | varying => exact .varying
  | inside low high => exact .inside ⟨low.1.wrapping, low.2⟩ ⟨high.1.wrapping, high.2⟩
  | outside low high order =>
      exact .outside ((ty.fits_wrapping _).trans low) ((ty.fits_wrapping _).trans high) order
  | apartFrom n offset => exact .apartFrom n offset

namespace BinaryOp

variable {ty : ScalarType} {x y v : Int}

theorem shiftAmount_eq_some {n : Nat} (h : shiftAmount y ty = some n) :
    (0 ≤ y ∧ y < ty.precision) ∧ n = y.toNat := by
  unfold shiftAmount at h
  split at h
  · next bounds => exact ⟨bounds, (Option.some.inj h).symm⟩
  · cases h

theorem floor_mul_inv_twoPow (x : Int) (n : Nat) : ⌊(x : ℚ) * (twoPow n : ℚ)⁻¹⌋ = x >>> n := by
  have positive := twoPow_pos n
  have quotient := floor_div x (y := twoPow n) (by omega)
  rw [Int.fdiv_eq_ediv_of_nonneg _ (by omega)] at quotient
  rw [← div_eq_mul_inv, Int.shiftRight_eq_div_pow]
  exact_mod_cast quotient

theorem floor_mul_twoPow (x : Int) (n : Nat) : ⌊(x : ℚ) * (twoPow n : ℚ)⌋ = x * twoPow n := by
  exact_mod_cast Int.floor_intCast (R := ℚ) (x * twoPow n)

theorem applyExact_shr (h : shr.applyExact x y ty = some v) :
    v = ⌊(x : ℚ) * (twoPow y.toNat : ℚ)⁻¹⌋ := by
  obtain ⟨n, amount, rfl⟩ := Option.map_eq_some_iff.mp h
  obtain ⟨-, rfl⟩ := shiftAmount_eq_some amount
  exact (floor_mul_inv_twoPow x _).symm

theorem applyExact_shl (h : shl.applyExact x y ty = some v) : v = x * twoPow y.toNat := by
  obtain ⟨n, amount, product⟩ := Option.bind_eq_some_iff.mp h
  obtain ⟨-, rfl⟩ := shiftAmount_eq_some amount
  exact Wide.eq_of_check product

end BinaryOp

namespace ValueRange

variable {env : NameId → Int} {ty : ScalarType} {a b : ValueRange} {v x y : Int}

theorem isRange_of_kind_eq (kinds : a.kind = b.kind) (h : b.isRange = true) : a.isRange = true := by
  obtain ⟨lo, hi, extent⟩ := exists_inside h
  obtain ⟨extentA, equiv⟩ := a
  rw [kind, kind, extent] at kinds
  cases extentA with
  | inside => rfl
  | undefined | outside | varying => cases kinds

/-- Shifting a value of the type to the right gives a value of the type. -/
theorem fits_shiftRight (hx : ty.fits x = true) (n : Nat) :
    ty.fits ⌊(x : ℚ) * (twoPow n : ℚ)⁻¹⌋ = true := by
  have least : (1 : ℚ) ≤ twoPow n := by exact_mod_cast twoPow_pos n
  obtain ⟨low, high⟩ := rounded_towards_zero .floor x
    (inv_nonneg.mpr (zero_le_one.trans least)) (inv_le_one_of_one_le₀ least)
  have zero := ScalarType.fits_iff.mp ty.fits_zero
  rw [ScalarType.fits_iff] at hx ⊢
  omega

theorem isScaled_shr {s t c : Bound} (hs : s.Fits ty) (h : boundBinary? .shr ty s t = some c) :
    IsScaled ty Int.floor (fun y => (twoPow y.toNat : ℚ)⁻¹) (s.reading env ty) (t.reading env ty)
      c := by
  obtain ⟨x, y, hx, hy, result⟩ := boundBinary?_result h
  rw [reading_of_concrete? hx, reading_of_concrete? hy]
  have fits := fits_shiftRight (fits_of_concrete? hs hx) y.toNat
  cases result with
  | value exact_ =>
      rw [BinaryOp.applyExact_shr exact_]
      exact .inl ⟨rfl, fits⟩
  | beyond exact_ _ reason _ _ _ rounded =>
      obtain ⟨finite, finite'⟩ := rounded (.inr rfl)
      rw [BinaryOp.applyExact_shr exact_] at reason
      simp [fits, finite, finite'] at reason

theorem twoPow_toNat_mono {m n : Int} (h : m ≤ n) : twoPow m.toNat ≤ twoPow n.toNat :=
  Nat.pow_le_pow_right (by decide) (Int.toNat_le_toNat h)

theorem shr_holds (ha : a.Proper ty) (kinds : a.kind = b.kind) (hx : ty.fits x = true)
    (holdsA : a.Holds env ty x) (holdsB : b.Holds env ty y)
    (h : BinaryOp.shr.applyExact x y ty = some v) :
    (shift false ty a b).Holds env ty (ty.wrap v) := by
  unfold shift
  split
  · next lo hi finite ends =>
      have rangeB := (Bool.and_eq_true_iff.mp finite).1
      have rangeA := isRange_of_kind_eq kinds rangeB
      obtain ⟨low, high⟩ := concrete?_of_constBounds? ends
      obtain ⟨above, below⟩ := holdsB.within_constBounds? rangeB ends
      split
      · trivial
      · rw [if_pos (show (!false) = true from rfl), BinaryOp.applyExact_shr h]
        refine crossProducts_scaled (fun y => (twoPow y.toNat : ℚ)⁻¹) .floor
          rangeA holdsA (fun _ => .inr ?_)
          (fun s hs t ht c result => isScaled_shr (ha.end_fits hs) result)
          (fun _ => fits_shiftRight hx _)
        rw [reading_of_concrete? low, reading_of_concrete? high]
        have positive : ∀ n, (0 : ℚ) < twoPow n := fun n => by exact_mod_cast twoPow_pos n
        constructor
        · exact inv_anti₀ (positive _) (by exact_mod_cast twoPow_toNat_mono below)
        · exact inv_anti₀ (positive _) (by exact_mod_cast twoPow_toNat_mono above)
  · trivial

/-- A left shift by one amount, as a product with a power of two. -/
theorem product_twoPow_holds (integral : ty.isIntegral = true) (ha : a.Proper ty)
    (rangeA : a.isRange = true) (concrete : a.isSymbolic = false) (holdsA : a.Holds env ty x)
    (n : Nat) : (product ty.wrapping a (singleton (ty.wrapping.wrap (twoPow n)))).Holds env ty
      (ty.wrap (x * twoPow n)) := by
  have bounded : a.isBounded = true := by
    obtain ⟨lo, hi, extent⟩ := exists_inside rangeA
    simp [isBounded, extent, Extent.isBounded]
  have same : ty.wrap (x * twoPow n) = ty.wrapping.wrap (x * ty.wrapping.wrap (twoPow n)) := by
    rw [ty.wrapping_wrap, ty.wrapping_wrap, ty.wrap_mul_wrap]
  rw [same]
  refine holds_wrapping.mp (product_holds ?_ ha.wrapping ?_ bounded rfl concrete rfl
    (holds_wrapping.mpr holdsA) ⟨le_rfl, le_rfl⟩ fun undefined => ?_)
  · rw [ty.wrapping_isIntegral]
    exact integral
  · exact singleton_proper (ty.wrapping.wrap_fits _)
  · rw [ty.wrapping_overflowUndefined] at undefined
    cases undefined

/-- Where left shifts of ends by ends are said to fit, they do. -/
theorem shiftsFit_spec {ends0 ends1 : Int × Int} (h : shiftsFit ty ends0 ends1 = true) {s t : Int}
    (hs : s ∈ [ends0.1, ends0.2]) (ht : t ∈ [ends1.1, ends1.2]) :
    ty.fits (s * twoPow t.toNat) = true := by
  have all : (BinaryOp.shl.applyExact s t ty).any ty.fits = true := by
    simp only [shiftsFit, List.all_cons, List.all_nil, Bool.and_true, Bool.and_eq_true] at h
    simp only [List.mem_cons, List.not_mem_nil, or_false] at hs ht
    rcases hs with rfl | rfl <;> rcases ht with rfl | rfl
    · exact h.1
    · exact h.2.1
    · exact h.2.2.1
    · exact h.2.2.2
  cases exact_ : BinaryOp.shl.applyExact s t ty with
  | none => simp [exact_] at all
  | some p =>
      rw [← BinaryOp.applyExact_shl exact_]
      simpa [exact_] using all

theorem isInfinity_of_usesInfinity (interval : b.isRange = true) (h : b.usesInfinity = false) :
    b.min.isInfinity = false ∧ b.max.isInfinity = false := by
  obtain ⟨lo, hi, extent⟩ := exists_inside interval
  simpa [usesInfinity, Extent.usesInfinity, extent, Extent.isBounded, ValueRange.min,
    ValueRange.max] using h

/-- The left shift of an end by an end, where all of these stay in the type. -/
theorem isScaled_shl {s t c : Bound} (fits : ∀ x y p, s.concrete? ty = some x →
      t.concrete? ty = some y → BinaryOp.shl.applyExact x y ty = some p → ty.fits p = true)
    (hs : s.isInfinity = false) (ht : t.isInfinity = false)
    (h : boundBinary? .shl ty s t = some c) :
    IsScaled ty Int.floor (fun y => (twoPow y.toNat : ℚ)) (s.reading env ty) (t.reading env ty)
      c := by
  obtain ⟨x, y, hx, hy, result⟩ := boundBinary?_result h
  rw [reading_of_concrete? hx, reading_of_concrete? hy]
  cases result with
  | value exact_ inside =>
      rw [BinaryOp.applyExact_shl exact_, ← BinaryOp.floor_mul_twoPow] at inside ⊢
      exact .inl ⟨rfl, inside⟩
  | beyond exact_ _ reason => simp [fits _ _ _ hx hy exact_, hs, ht] at reason

/-- Where no left shift of an end by an end leaves the type, no shift of a value between them by an
    amount between them does. -/
theorem fits_of_shiftsFit {lo hi lo' hi' : Int} (fit : shiftsFit ty (lo, hi) (lo', hi') = true)
    (inside : lo ≤ x ∧ x ≤ hi) (amount : y ≤ hi') : ty.fits (x * twoPow y.toNat) = true := by
  have low := ScalarType.fits_iff.mp (shiftsFit_spec fit (s := lo) (t := hi') (by simp) (by simp))
  have high := ScalarType.fits_iff.mp (shiftsFit_spec fit (s := hi) (t := hi') (by simp) (by simp))
  have zero := ScalarType.fits_iff.mp ty.fits_zero
  have positive : (0 : Int) ≤ twoPow y.toNat := Int.natCast_nonneg _
  have positive' : (0 : Int) ≤ twoPow hi'.toNat := Int.natCast_nonneg _
  have grows : (twoPow y.toNat : Int) ≤ twoPow hi'.toNat := by
    exact_mod_cast twoPow_toNat_mono amount
  rw [ScalarType.fits_iff]
  rcases Int.le_total 0 x with nonneg | nonpos
  · have below : x * twoPow y.toNat ≤ hi * twoPow hi'.toNat :=
      Int.mul_le_mul inside.2 grows positive (nonneg.trans inside.2)
    have above : 0 ≤ x * twoPow y.toNat := Int.mul_nonneg nonneg positive
    omega
  · have above : lo * twoPow hi'.toNat ≤ x * twoPow y.toNat :=
      (Int.mul_le_mul_of_nonneg_right inside.1 positive').trans
        (Int.mul_le_mul_of_nonpos_left nonpos grows)
    have below : x * twoPow y.toNat ≤ 0 := Int.mul_nonpos_of_nonpos_of_nonneg nonpos positive
    omega

/-- A left shift by several amounts, where nothing is shifted out at the ends. -/
theorem crossProducts_shl_holds {ends0 ends1 : Int × Int} (rangeA : a.isRange = true)
    (rangeB : b.isRange = true) (finiteA : a.usesInfinity = false)
    (finiteB : b.usesInfinity = false) (hends0 : a.constBounds? ty = some ends0)
    (hends1 : b.constBounds? ty = some ends1) (fit : shiftsFit ty ends0 ends1 = true)
    (holdsA : a.Holds env ty x) (holdsB : b.Holds env ty y) :
    (crossProducts .shl ty a b).Holds env ty (ty.wrap (x * twoPow y.toNat)) := by
  obtain ⟨low0, high0⟩ := concrete?_of_constBounds? hends0
  obtain ⟨low1, high1⟩ := concrete?_of_constBounds? hends1
  obtain ⟨above, below⟩ := holdsB.within_constBounds? rangeB hends1
  have fits := fits_of_shiftsFit fit (holdsA.within_constBounds? rangeA hends0) below
  have finiteA := isInfinity_of_usesInfinity rangeA finiteA
  have finiteB := isInfinity_of_usesInfinity rangeB finiteB
  rw [← BinaryOp.floor_mul_twoPow] at fits ⊢
  refine crossProducts_scaled (fun y => (twoPow y.toNat : ℚ)) .floor rangeA
    holdsA (fun _ => .inl ?_) (fun s hs t ht c result => ?_) fun _ => fits
  · rw [reading_of_concrete? low1, reading_of_concrete? high1]
    exact ⟨by exact_mod_cast twoPow_toNat_mono above, by exact_mod_cast twoPow_toNat_mono below⟩
  · simp only [List.mem_cons, List.not_mem_nil, or_false] at hs ht
    refine isScaled_shl (fun x y p hx hy product =>
      BinaryOp.applyExact_shl product ▸ shiftsFit_spec fit ?_ ?_) ?_ ?_ result
    · rcases hs with rfl | rfl <;> grind
    · rcases ht with rfl | rfl <;> grind
    · rcases hs with rfl | rfl
      · exact finiteA.1
      · exact finiteA.2
    · rcases ht with rfl | rfl
      · exact finiteB.1
      · exact finiteB.2

theorem shl_holds (integral : ty.isIntegral = true) (ha : a.Proper ty) (kinds : a.kind = b.kind)
    (concrete : a.isSymbolic = false) (holdsA : a.Holds env ty x) (holdsB : b.Holds env ty y)
    (h : BinaryOp.shl.applyExact x y ty = some v) :
    (shift true ty a b).Holds env ty (ty.wrap v) := by
  have exact_ := BinaryOp.applyExact_shl h
  subst exact_
  unfold shift
  split
  · next lo hi finiteB ends =>
      obtain ⟨rangeB, finiteB⟩ := Bool.and_eq_true_iff.mp finiteB
      have rangeA := isRange_of_kind_eq kinds rangeB
      split
      · trivial
      · rw [if_neg (by simp)]
        split
        · next single =>
            obtain ⟨above, below⟩ := holdsB.within_constBounds? rangeB ends
            rw [show y = lo by omega]
            exact product_twoPow_holds integral ha rangeA concrete holdsA lo.toNat
        · split
          · next ends0 finiteA hends0 =>
              have finiteA := (Bool.and_eq_true_iff.mp finiteA).2
              split
              · next fit =>
                  exact crossProducts_shl_holds rangeA rangeB (by simpa using finiteA)
                    (by simpa using finiteB) hends0 ends fit holdsA holdsB
              · trivial
          · trivial
  · trivial

end ValueRange

end RangeFlow
