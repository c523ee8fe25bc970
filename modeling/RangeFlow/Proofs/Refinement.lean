import RangeFlow.Proofs.Intersections
import RangeFlow.Transfer.Rhs

/-! # Right-hand sides stay within their type

Intersections of proper ranges are proper, so an assertion refines a proper range to a proper one.
With the operators this gives it for every right-hand side whose operands have the types that its
place asks for.
-/

namespace RangeFlow

/-- A bound that can stand on both sides of an interval can be left out. -/
theorem Extent.outside_self_proper {ty : ScalarType} {bound : Bound} (low : bound.IsLower ty)
    (high : bound.IsUpper ty) : (outside bound bound).Proper ty := by
  cases bound with
  | negInf => exact absurd rfl high.2
  | posInf => exact absurd rfl low.2
  | symbolic n offset => exact .apartFrom n offset
  | const c => exact .outside low.1 low.1 (Int.le_refl c)

namespace Query

variable {query : Query} {ty : ScalarType}

theorem rangeOrVarying_proper {min max : Bound} (low : min.IsLower ty) (high : max.IsUpper ty) :
    (rangeOrVarying ty min max).Proper ty := by
  unfold rangeOrVarying
  split
  · exact .varying
  · split
    · exact .varying
    · exact Extent.canonical_inside low high

theorem stepBound_isUpper {bound : Bound} (h : bound.IsUpper ty)
    (above : bound ≠ .const ty.minValue) : (stepBound ty (-1) bound).IsUpper ty := by
  have order := ty.minValue_lt_maxValue
  cases bound with
  | negInf => exact absurd rfl h.2
  | symbolic n offset => exact ⟨trivial, by simp [stepBound]⟩
  | posInf => exact Bound.isUpper_const.mpr (ScalarType.fits_iff.mpr ⟨by omega, by omega⟩)
  | const c =>
      have bounds := ScalarType.fits_iff.mp (Bound.isUpper_const.mp h)
      have differs : c ≠ ty.minValue := fun same => above (congrArg Bound.const same)
      exact Bound.isUpper_const.mpr (ScalarType.fits_iff.mpr ⟨by omega, by omega⟩)

theorem stepBound_isLower {bound : Bound} (h : bound.IsLower ty)
    (below : bound ≠ .const ty.maxValue) : (stepBound ty 1 bound).IsLower ty := by
  have order := ty.minValue_lt_maxValue
  cases bound with
  | posInf => exact absurd rfl h.2
  | symbolic n offset => exact ⟨trivial, by simp [stepBound]⟩
  | negInf => exact Bound.isLower_const.mpr (ScalarType.fits_iff.mpr ⟨by omega, by omega⟩)
  | const c =>
      have bounds := ScalarType.fits_iff.mp (Bound.isLower_const.mp h)
      have differs : c ≠ ty.maxValue := fun same => below (congrArg Bound.const same)
      exact Bound.isLower_const.mpr (ScalarType.fits_iff.mpr ⟨by omega, by omega⟩)

theorem atMost_proper (strict : Bool) {max : Bound} (h : max.IsUpper ty) :
    (atMost ty strict max).Proper ty := by
  have least : (Bound.const ty.minValue).IsLower ty :=
    Bound.isLower_const.mpr (Extent.fits_minValue ty)
  unfold atMost
  dsimp only
  split
  · split
    · exact .varying
    · next above =>
        refine rangeOrVarying_proper least (stepBound_isUpper h fun same => above ?_)
        rw [same, Bound.compare_self]
        rfl
  · exact rangeOrVarying_proper least h

theorem atLeast_proper (strict : Bool) {min : Bound} (h : min.IsLower ty) :
    (atLeast ty strict min).Proper ty := by
  have greatest : (Bound.const ty.maxValue).IsUpper ty :=
    Bound.isUpper_const.mpr (Extent.fits_maxValue ty)
  unfold atLeast
  dsimp only
  split
  · split
    · exact .varying
    · next below =>
        refine rangeOrVarying_proper (stepBound_isLower h fun same => below ?_) greatest
        rw [same, Bound.compare_self]
        rfl
  · exact rangeOrVarying_proper h greatest

theorem impliedByRange_proper (op : CmpOp) {limit : ValueRange} (h : limit.Proper ty)
    (bounded : limit.isBounded = true) : (impliedByRange op ty limit).Proper ty := by
  obtain ⟨extent, equiv⟩ := limit
  cases extent with
  | undefined | varying => cases bounded
  | outside lo hi =>
      cases op with
      | eq => exact Extent.Proper.canonical h
      | ne | lt | le | gt | ge => exact .varying
  | inside lo hi =>
      have low := Extent.Proper.lower h
      have high := Extent.Proper.upper h
      cases op with
      | eq => exact Extent.Proper.canonical h
      | ne =>
          simp only [impliedByRange]
          split
          · next single =>
              have same : lo = hi := by
                simpa [ValueRange.isRange, Extent.isRange, ValueRange.min, ValueRange.max,
                  Extent.min, Extent.max] using single
              subst same
              exact (Extent.outside_self_proper low high).canonical
          · exact .varying
      | lt => exact atMost_proper true high
      | le => exact atMost_proper false high
      | gt => exact atLeast_proper true low
      | ge => exact atLeast_proper false low

theorem impliedByBound_proper (op : CmpOp) (n : NameId) :
    (impliedByBound op ty (.ofName n)).Proper ty := by
  have low : (Bound.ofName n).IsLower ty := ⟨trivial, by simp [Bound.ofName]⟩
  have high : (Bound.ofName n).IsUpper ty := ⟨trivial, by simp [Bound.ofName]⟩
  cases op with
  | eq => exact .inside low high
  | ne => exact .apartFrom n 0
  | lt | le => exact atMost_proper _ high
  | gt | ge => exact atLeast_proper _ low

/-- What is known about every name of a followed type is proper for it. -/
def Proper (query : Query) : Prop :=
  ∀ n, (query.typeOf n).isTracked = true → (query.rangeOf n).Proper (query.typeOf n)

/-- The operand is a name of the type, or a value of it. -/
def Typed (query : Query) (ty : ScalarType) : Operand → Prop
  | .name n => query.typeOf n = ty
  | .const c => ty.fits c = true

/-- The limits of a predicate on a name of the type have the type. -/
def PredicateTyped (query : Query) (ty : ScalarType) : Predicate → Prop
  | .within low high _ => ty.fits low = true ∧ ty.fits high = true
  | .compare _ limit => query.Typed ty limit

/-- The operands have the types that the right-hand side asks for. -/
def RhsTyped (query : Query) (ty : ScalarType) : Rhs → Prop
  | .copy x => query.Typed ty x
  | .unary op x => op = .abs → query.Typed ty x
  | .binary op x y => query.Typed ty x ∧ (op.isAsymmetric = false → query.Typed ty y)
  | .select _ x y => query.Typed ty x ∧ query.Typed ty y
  | .assert subject predicate => query.typeOf subject = ty ∧ query.PredicateTyped ty predicate
  | _ => True

variable (hq : query.Proper) (tracked : ty.isTracked = true)

include hq tracked

theorem operandRange_proper {o : Operand} (h : query.Typed ty o) :
    (query.operandRange o).Proper ty := by
  cases o with
  | const c => exact ValueRange.singleton_proper h
  | name n =>
      cases h
      exact hq n tracked

theorem implied_proper {predicate : Predicate} (h : query.PredicateTyped ty predicate) :
    (query.implied ty predicate).Proper ty := by
  cases predicate with
  | within low high negated =>
      cases negated with
      | true => exact (Extent.canonical_outside h.1 h.2).1
      | false =>
          exact Extent.canonical_inside (Bound.isLower_const.mpr h.1) (Bound.isUpper_const.mpr h.2)
  | compare op limit =>
      cases limit with
      | const c => exact impliedByRange_proper op (ValueRange.singleton_proper h) rfl
      | name n =>
          simp only [implied, limitRange?]
          split
          · next vr known =>
              split at known
              · next bounded =>
                  cases known
                  cases h
                  exact impliedByRange_proper op (hq n tracked) (Bool.and_eq_true_iff.mp bounded).1
              · cases known
          · exact impliedByBound_proper op n

theorem assertResult_proper {subject : NameId} {predicate : Predicate}
    (own : query.typeOf subject = ty) (h : query.PredicateTyped ty predicate) :
    (query.assertResult subject predicate ty).Proper ty := by
  have known : (query.rangeOf subject).Proper ty := by
    subst own
    exact hq subject tracked
  have limits : ((query.implied ty predicate).withEquiv
      (query.assertedEquals subject predicate)).Proper ty := by
    unfold ValueRange.Proper
    rw [ValueRange.withEquiv_extent]
    exact implied_proper hq tracked h
  have refined : ∀ skip : Bool, (if skip then ValueRange.varying
      else (query.rangeOf subject).intersect ty ((query.implied ty predicate).withEquiv
        (query.assertedEquals subject predicate))).Proper ty := by
    intro skip
    split
    · exact .varying
    · exact ValueRange.intersect_proper known limits
  unfold assertResult
  split
  · exact .varying
  · exact refined _

omit hq tracked in
theorem compareResult_proper (query : Query) (op : CmpOp) (lhs rhs : Operand) (ty : ScalarType) :
    (query.compareResult op lhs rhs ty).Proper ty := by
  unfold compareResult
  split
  · exact ValueRange.singleton_proper (ty.wrap_fits _)
  · unfold truthValues
    split
    · exact .varying
    · next wide =>
        have one : ty.fits 1 = true := by
          have := ty.minValue_nonpos
          exact ScalarType.fits_iff.mpr ⟨by omega, ScalarType.one_le_maxValue wide⟩
        exact .inside (Bound.isLower_const.mpr ty.fits_zero) (Bound.isUpper_const.mpr one)

theorem copyResult_proper {o : Operand} (h : query.Typed ty o) :
    (query.copyResult ty o).Proper ty := by
  cases o with
  | const c => exact ValueRange.singleton_proper h
  | name n =>
      have known : (query.rangeOf n).Proper ty := operandRange_proper hq tracked h
      simp only [copyResult]
      split
      · exact .varying
      · split
        · exact known
        · dsimp only [ValueRange.Proper, ValueRange.addEquivalence]
          split
          · exact .inside ⟨trivial, by simp [Bound.ofName]⟩ ⟨trivial, by simp [Bound.ofName]⟩
          · exact known

theorem toleratesPartial_typed {op : BinaryOp} {x y : Operand} (hx : query.Typed ty x)
    (hy : op.isAsymmetric = false → query.Typed ty y)
    (h : ValueRange.toleratesPartial op = true) :
    (query.operandRange x).Proper ty ∧ (query.operandRange y).Proper ty := by
  have symmetric : op.isAsymmetric = false := by
    cases op <;> first | rfl | cases h
  exact ⟨operandRange_proper hq tracked hx, operandRange_proper hq tracked (hy symmetric)⟩

/-- The range of a right-hand side with operands of the right types is proper. -/
theorem rhsResult_proper {rhs : Rhs} {divisionTraps : Bool} (h : query.RhsTyped ty rhs) :
    (query.rhsResult ty rhs divisionTraps).Proper ty := by
  cases rhs with
  | copy x => exact copyResult_proper hq tracked h
  | unary op x =>
      refine ValueRange.unary_proper op _ ty fun magnitude => ⟨?_, ?_⟩
      · cases x with
        | const c => rfl
        | name n => exact h magnitude
      · exact operandRange_proper hq tracked (h magnitude)
  | binary op x y =>
      unfold rhsResult binaryResult
      dsimp only
      split
      · exact .varying
      · exact ValueRange.binary_proper op (toleratesPartial_typed hq tracked h.1 h.2)
  | compare op x y => exact compareResult_proper query op x y ty
  | select cond x y =>
      have first := operandRange_proper hq tracked h.1
      have second := operandRange_proper hq tracked h.2
      unfold rhsResult selectResult
      dsimp only
      split
      · exact first
      · exact second
      · exact (ValueRange.meet_covers first second).1
  | assert subject predicate => exact assertResult_proper hq tracked h.1 h.2
  | addressOf => exact ValueRange.nonnull_proper ty
  | call arguments nonnull =>
      unfold rhsResult
      dsimp only
      split
      · exact ValueRange.nonnull_proper ty
      · exact .varying
  | load address => exact .varying

end Query

end RangeFlow
