import RangeFlow.Proofs.StrictProducts

/-! # Operators never leave their words

The range of an operator over strict words is the exact one: no sum, difference, shift or magnitude
that is not checked leaves its word. Only wrapping products, and left shifts by one amount, which
are such products, need ends that are values of their type; everywhere else it is enough that
constant ends are no further from zero than the size of some type, so operands may be of different
types.
-/

namespace RangeFlow.Strict

open ValueRange (Ends)

/-- What the operator needs of the constant ends of its operands. -/
structure Operands (op : BinaryOp) (ty : ScalarType) (a b : ValueRange) : Prop where
  left : a.Ends Near
  right : b.Ends Near
  scaled : op = .mul ∨ op = .shl → a.Ends (ty.fits · = true)
  factor : op = .mul → b.Ends (ty.fits · = true)

variable {op : BinaryOp} {ty source target : ScalarType} {a b vr first : ValueRange}
  {second : Option ValueRange}

/-! ## Binary operators -/

theorem near_of_splitAnti? (h : vr.Ends Near)
    (parts : ValueRange.splitAnti? ty vr = some (first, second)) :
    first.Ends Near ∧ ∀ part, second = some part → part.Ends Near :=
  ValueRange.ends_of_splitAnti? h (fun x y z low high _ _ => by rw [near_iff] at *; omega)
    ty.near_minValue ty.near_maxValue parts

theorem fits_of_splitAnti? (h : vr.Ends (ty.fits · = true))
    (parts : ValueRange.splitAnti? ty vr = some (first, second)) :
    first.Ends (ty.fits · = true) ∧ ∀ part, second = some part → part.Ends (ty.fits · = true) :=
  ValueRange.ends_of_splitAnti? h
    (fun x y z low high _ _ => by rw [ScalarType.fits_iff] at *; omega)
    (Extent.fits_minValue ty) (Extent.fits_maxValue ty) parts

theorem Operands.splitLeft (h : Operands op ty a b)
    (parts : ValueRange.splitAnti? ty a = some (first, second)) :
    Operands op ty first b ∧ ∀ part, second = some part → Operands op ty part b := by
  have near := near_of_splitAnti? h.left parts
  have fits := fun scaled => fits_of_splitAnti? (h.scaled scaled) parts
  exact ⟨⟨near.1, h.right, fun scaled => (fits scaled).1, h.factor⟩, fun part found =>
    ⟨near.2 part found, h.right, fun scaled => (fits scaled).2 part found, h.factor⟩⟩

theorem Operands.splitRight (h : Operands op ty a b)
    (parts : ValueRange.splitAnti? ty b = some (first, second)) :
    Operands op ty a first ∧ ∀ part, second = some part → Operands op ty a part := by
  have near := near_of_splitAnti? h.right parts
  have fits := fun factor => fits_of_splitAnti? (h.factor factor) parts
  exact ⟨⟨h.left, near.1, h.scaled, fun factor => (fits factor).1⟩, fun part found =>
    ⟨h.left, near.2 part found, h.scaled, fun factor => (fits factor).2 part found⟩⟩

/-- A range without values counts as one of any value. -/
theorem Operands.known (h : Operands op ty a b) :
    Operands op ty (if a.isUndefined then .varying else a)
      (if b.isUndefined then .varying else b) := by
  have known {P : Int → Prop} {x : ValueRange} (zero : P 0) (hx : x.Ends P) :
      (if x.isUndefined then .varying else x : ValueRange).Ends P := by
    split
    · exact ValueRange.ends_varying zero
    · exact hx
  exact ⟨known near_zero h.left, known near_zero h.right,
    fun scaled => known ty.fits_zero (h.scaled scaled),
    fun factor => known ty.fits_zero (h.factor factor)⟩

theorem integerBinary_eq (h : Operands op ty a b) :
    integerBinary op ty a b = pure (ValueRange.integerBinary op ty a b) := by
  obtain ⟨left, right, scaled, factor⟩ := h.known
  unfold integerBinary ValueRange.integerBinary
  split
  · rfl
  · generalize (if a.isUndefined then .varying else a : ValueRange) = a' at *
    generalize (if b.isUndefined then .varying else b : ValueRange) = b' at *
    dsimp only
    split
    · rfl
    · cases op with
      | add | sub => exact sum_eq _ left right
      | mul => exact product_eq (scaled (.inl rfl)) (factor rfl)
      | shl => exact shift_eq left fun _ => scaled (.inr rfl)
      | shr => exact shift_eq left fun absurd => by cases absurd
      | truncDiv | floorDiv | ceilDiv | roundDiv | exactDiv => exact quotient_eq _ left
      | truncMod => exact remainder_eq right
      | min | max => exact extremum_eq _ left right
      | bitAnd | bitOr | bitXor => exact bitwise_eq _ left right
      | pointerPlus => rfl

theorem binaryOfSplitRight_eq (h : Operands op ty a b) :
    binaryOfSplitRight op ty a b = pure (ValueRange.binaryOfSplitRight op ty a b) := by
  rw [binaryOfSplitRight, ValueRange.binaryOfSplitRight, splitAnti?_eq h.right, pure_bind]
  cases parts : ValueRange.splitAnti? ty b with
  | none => exact integerBinary_eq h
  | some pair =>
      obtain ⟨first, second⟩ := pair
      have split := h.splitRight parts
      cases second with
      | none => exact integerBinary_eq split.1
      | some second =>
          simp only [integerBinary_eq split.1, integerBinary_eq (split.2 second rfl), pure_bind]

theorem binary_eq (h : Operands op ty a b) :
    binary op ty a b = pure (ValueRange.binary op ty a b) := by
  unfold binary ValueRange.binary
  rw [splitAnti?_eq h.left, pure_bind]
  split
  · rfl
  · split
    · rfl
    · cases parts : ValueRange.splitAnti? ty a with
      | none => exact binaryOfSplitRight_eq h
      | some pair =>
          obtain ⟨first, second⟩ := pair
          have split := h.splitLeft parts
          cases second with
          | none => exact binaryOfSplitRight_eq split.1
          | some second =>
              simp only [binaryOfSplitRight_eq split.1, binaryOfSplitRight_eq (split.2 second rfl),
                pure_bind]

/-! ## Unary operators -/

theorem fold_eq (op : UnaryOp) (x : Int) (source target : ScalarType) :
    fold op x source target = pure (op.fold x source target) := by
  unfold fold UnaryOp.fold
  simp only [wrap_eq, pure_bind]
  split
  · rfl
  · cases op.applyExact x with
    | none => rfl
    | some exact_ => simp only [Option.bind_some, apply_ite (pure : Option Int → Strict _)]

theorem foldSingle_eq (op : UnaryOp) (source target : ScalarType) (vr : ValueRange) :
    foldSingle op source target vr = pure (ValueRange.foldSingle op source target vr) := by
  unfold foldSingle ValueRange.foldSingle
  cases vr.single? with
  | none => rfl
  | some value =>
      simp only [fold_eq, pure_bind, Option.bind_some]
      cases op.fold value source target <;> rfl

theorem convertsExactly_eq {ends : Int × Int} (h : Near ends.1 ∧ Near ends.2) :
    convertsExactly source target vr ends =
      pure (ValueRange.convertsExactly source target vr ends) := by
  have width : target.precision < 128 := Nat.lt_of_le_of_lt target.precision_le (by decide)
  simp only [convertsExactly, ValueRange.convertsExactly, sub_eq h.2 h.1, shr_eq width, pure_bind]
  by_cases wider : source.precision ≤ target.precision
  · simp [wider]
  · cases vr.isRange <;> simp [wider]

theorem canonical_ofKind_eq (kind : RangeKind) {lo hi : Bound} (low : lo.Satisfies Near)
    (high : hi.Satisfies Near) :
    canonical ty (.ofKind kind lo hi) = pure (ValueRange.canonical ty (.ofKind kind lo hi)) := by
  cases kind with
  | undefined | varying => rfl
  | range | antiRange => exact canonical_eq low high

theorem convertEnd_eq (target : ScalarType) (infinity bound : Bound) (value : Int) :
    convertEnd target infinity bound value =
      pure (if bound.isInfinity then infinity else .const (target.wrap value)) := by
  simp only [convertEnd, wrap_eq, pure_bind, apply_ite (pure : Bound → Strict _)]

theorem convert_eq (h : vr.Ends Near) :
    convert source target vr = pure (ValueRange.convert source target vr) := by
  have known : (if vr.isVarying && source.isIntegral && decide (source.precision < target.precision)
      then .full source else vr : ValueRange).Ends Near := by
    split
    · exact ValueRange.ends_full source.near_minValue source.near_maxValue
    · exact h
  have converted (infinite : Bool) (infinity : Bound) (x : Int) (far : infinity.Satisfies Near) :
      (if infinite then infinity else .const (target.wrap x)).Satisfies Near := by
    split
    · exact far
    · exact ScalarType.near_of_fits (target.wrap_fits x)
  unfold convert ValueRange.convert
  dsimp only
  generalize (if vr.isVarying && source.isIntegral && decide (source.precision < target.precision)
      then .full source else vr : ValueRange) = x at *
  split
  · rfl
  · split
    · rfl
    · cases ends : x.constBounds? source with
      | none => rfl
      | some pair =>
          simp only [convertsExactly_eq (known.near ends), convertEnd_eq, pure_bind]
          rw [canonical_ofKind_eq x.kind (converted _ .negInf pair.1 trivial)
            (converted _ .posInf pair.2 trivial)]
          exact (apply_ite pure ..).symm

theorem absBound?_eq {bound : Bound} (h : bound.Satisfies Near) :
    absBound? ty bound = pure (ValueRange.absBound? ty bound) := by
  cases bound with
  | const c =>
      simp only [absBound?, ValueRange.absBound?, abs_eq h, pure_bind]
      split <;> rfl
  | negInf | symbolic | posInf => rfl

theorem absInterval_eq {hasZero : Bool} {lo hi : Bound} (low : lo.Satisfies Near)
    (high : hi.Satisfies Near) :
    absInterval ty hasZero lo hi = pure (ValueRange.absInterval ty hasZero lo hi) := by
  have zero : (Bound.const 0).Satisfies Near := near_zero
  unfold absInterval ValueRange.absInterval
  cases hasZero <;> cases Bound.compare ty lo hi == .greater <;>
    simp only [Bool.false_eq_true, if_false, if_true] <;> split <;>
    first
    | rfl
    | exact canonical_inside_eq (by assumption) (by assumption)

theorem absBound?_near {bound magnitude : Bound} (h : bound.Satisfies Near)
    (found : ValueRange.absBound? ty bound = some magnitude) : magnitude.Satisfies Near := by
  cases bound with
  | const c =>
      cases found
      split
      · unfold Bound.positiveExtreme
        split
        · trivial
        · exact ty.near_maxValue
      · have near : Near c := h
        rw [near_iff] at near
        exact near_iff.mpr ⟨by omega, by omega⟩
  | negInf | posInf =>
      cases found
      trivial
  | symbolic n offset => cases found

theorem absolute_eq (h : vr.Ends Near) :
    absolute ty vr = pure (ValueRange.absolute ty vr) := by
  unfold absolute ValueRange.absolute
  simp only [absBound?_eq h.low, absBound?_eq h.high, pure_bind]
  split
  · rfl
  · split
    · rfl
    · split
      · rfl
      · cases first : ValueRange.absBound? ty vr.min with
        | none => rfl
        | some lo =>
            cases last : ValueRange.absBound? ty vr.max with
            | none => rfl
            | some hi =>
                simp only [absInterval_eq (absBound?_near h.low first) (absBound?_near h.high last)]
                exact (apply_ite pure ..).symm

theorem absOrConvert_eq (op : UnaryOp) (h : vr.Ends Near) :
    absOrConvert op source target vr = pure (ValueRange.absOrConvert op source target vr) := by
  simp only [absOrConvert, ValueRange.absOrConvert, absolute_eq h, convert_eq h,
    apply_ite (pure : ValueRange → Strict _)]

theorem unaryOfSplit_eq (op : UnaryOp) (h : vr.Ends Near) :
    unaryOfSplit op source target vr = pure (ValueRange.unaryOfSplit op source target vr) := by
  unfold unaryOfSplit ValueRange.unaryOfSplit
  rw [splitAnti?_eq h, pure_bind]
  cases source.isPointer with
  | true => exact absOrConvert_eq op h
  | false =>
      simp only [Bool.false_eq_true, if_false]
      cases parts : ValueRange.splitAnti? source vr with
      | none => exact absOrConvert_eq op h
      | some pair =>
          obtain ⟨first, second⟩ := pair
          have near := near_of_splitAnti? h parts
          cases second with
          | none => exact absOrConvert_eq op near.1
          | some second =>
              simp only [absOrConvert_eq op near.1, absOrConvert_eq op (near.2 second rfl),
                pure_bind]

theorem unary_eq (op : UnaryOp) (h : vr.Ends Near) :
    unary op source target vr = pure (ValueRange.unary op source target vr) := by
  have difference {c : Int} (hc : Near c) : Operands .sub target (.singleton c) vr :=
    ⟨ValueRange.ends_singleton hc, h, fun scaled => by simp at scaled,
      fun factor => by cases factor⟩
  unfold unary ValueRange.unary
  split
  · rfl
  · split
    · rfl
    · cases op with
      | negate => exact binary_eq (difference near_zero)
      | bitNot => exact binary_eq (difference (near_iff.mpr ⟨by omega, by omega⟩))
      | truthNot | floatToInt | intToFloat => exact foldSingle_eq _ source target vr
      | convert =>
          simp only [unaryOfSplit_eq _ h, apply_ite (pure : ValueRange → Strict _)]
      | abs => exact unaryOfSplit_eq _ h

/-! ## All operators -/

/-- If the constant ends of ranges are values of their types, no operator has a fault, and each
    gives the exact range. Amounts of shifts and offsets may be of a type of their own; all other
    operands of a binary operator are of the type of the result. Types know their ends and their
    size without a fault as well. Proper ranges have such ends; others may also be complements of
    intervals with infinities or names as ends, or have ends that are out of order. -/
theorem transfer_never_faults :
    (∀ op ty place a b, a.Ends (ty.fits · = true) → b.Ends (place.fits · = true) →
      (op.isAsymmetric = false → place = ty) →
      binary op ty a b = .ok (ValueRange.binary op ty a b)) ∧
    (∀ op source target vr, vr.Ends (source.fits · = true) →
      unary op source target vr = .ok (ValueRange.unary op source target vr)) ∧
    ∀ ty : ScalarType, size ty = .ok ty.size ∧ minValue ty = .ok ty.minValue ∧
      maxValue ty = .ok ty.maxValue := by
  have near {ty : ScalarType} {x : ValueRange} (h : x.Ends (ty.fits · = true)) : x.Ends Near :=
    h.mono fun _ => ScalarType.near_of_fits
  refine ⟨fun op ty place a b ha hb same => ?_, fun op source target vr h => unary_eq op (near h),
    fun ty => ⟨size_eq ty, minValue_eq ty, maxValue_eq ty⟩⟩
  refine binary_eq ⟨near ha, near hb, fun _ => ha, ?_⟩
  rintro rfl
  cases same rfl
  exact hb

/-- The products of unsigned intervals on the two sides of zero reach the edge of the word, but not
    beyond it; the magnitude of the least value leaves its type, but not the word. -/
theorem transfer_never_faults_edge :
    let u64 := ScalarType.int ⟨64, by decide⟩ .unsigned
    let i64 := ScalarType.int ⟨64, by decide⟩ .signed
    let low := ValueRange.range (.const 1) (.const (2 ^ 64 - 1))
    let high := ValueRange.range (.const (2 ^ 63 + 1)) (.const (2 ^ 64 - 1))
    let least := ValueRange.singleton (-(2 ^ 63))
    (ValueRange.endProducts? (ValueRange.recentre u64 (1, 2 ^ 64 - 1))
        (ValueRange.recentre u64 (2 ^ 63 + 1, 2 ^ 64 - 1))).isSome = true ∧
      (low.Proper u64 ∧ high.Proper u64 ∧ least.Proper i64) ∧
      binary .mul u64 low high = .ok (ValueRange.binary .mul u64 low high) ∧
      unary .abs i64 i64 least = .ok (ValueRange.unary .abs i64 i64 least) := by
  intro u64 i64 low high least
  have properLow : low.Proper u64 := .inside ⟨rfl, nofun⟩ ⟨rfl, nofun⟩
  have properHigh : high.Proper u64 := .inside ⟨rfl, nofun⟩ ⟨rfl, nofun⟩
  have properLeast : least.Proper i64 := ValueRange.singleton_proper rfl
  exact ⟨by decide +kernel, ⟨properLow, properHigh, properLeast⟩,
    transfer_never_faults.1 .mul u64 u64 low high properLow.const_ends properHigh.const_ends
      fun _ => rfl,
    transfer_never_faults.2.1 .abs i64 i64 least properLeast.const_ends⟩

end RangeFlow.Strict
