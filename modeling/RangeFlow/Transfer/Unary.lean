import RangeFlow.Transfer.Binary

/-! # Ranges of unary operators

`ValueRange.unary` gives a range for the result of an operator, or of a conversion between two
types, on a value of a range.
-/

namespace RangeFlow.ValueRange

/-- The operator on the one value of a range; nothing is known for more values. -/
def foldSingle (op : UnaryOp) (source target : ScalarType) (vr : ValueRange) : ValueRange :=
  match vr.single?.bind fun value => op.fold value source target with
  | some value => singleton value
  | none => varying

/-- Conversion to a pointer: only null and not null are told apart. -/
def toPointer (source : ScalarType) (vr : ValueRange) : ValueRange :=
  if vr.isNull then null
  else if vr.excludesZero source then nonnull
  else varying

/-- Does conversion keep the values between the ends apart? It does to at least as many bits, and
    to fewer bits if the ends are close enough. -/
def convertsExactly (source target : ScalarType) (vr : ValueRange) (ends : Int × Int) : Bool :=
  decide (source.precision ≤ target.precision) ||
    (vr.isRange && (ends.2 - ends.1) >>> target.precision == 0)

/-- Conversion of a range to a type that is not a pointer. An infinity survives only a widening
    to a type whose overflow is undefined. -/
def convert (source target : ScalarType) (vr : ValueRange) : ValueRange :=
  let widening := decide (source.precision < target.precision)
  let vr := if vr.isVarying && source.isIntegral && widening then full source else vr
  if !vr.isBounded || vr.isSymbolic then varying
  else if vr.usesInfinity && !(vr.isRange && widening && target.overflowUndefined) then varying
  else match vr.constBounds? source with
    | none => varying
    | some (lo, hi) =>
        if convertsExactly source target vr (lo, hi) then
          let min := if vr.min.isInfinity then .negInf else .const (target.wrap lo)
          let max := if vr.max.isInfinity then .posInf else .const (target.wrap hi)
          canonical target (.ofKind vr.kind min max)
        else varying

/-- Magnitude of a bound. The magnitude of the least value leaves the type. -/
def absBound? (ty : ScalarType) (b : Bound) : Option Bound :=
  match b with
  | .negInf | .posInf => some .posInf
  | .const c => some (if b.isMin ty then .positiveExtreme ty else .const c.natAbs)
  | .symbolic _ _ => none

/-- The interval of magnitudes between the magnitudes of two ends; it starts at zero if the ends
    have zero between them. -/
def absInterval (ty : ScalarType) (hasZero : Bool) (min max : Bound) : ValueRange :=
  let swapped := Bound.compare ty min max == .greater
  let (lo, hi) :=
    if hasZero then (.const 0, if swapped then min else max)
    else if swapped then (max, min)
    else (min, max)
  if (Bound.compare ty lo hi).isLe then canonical ty (.inside lo hi) else varying

/-- Magnitude of a range. -/
def absolute (ty : ScalarType) (vr : ValueRange) : ValueRange :=
  if !ty.signed || vr.isNonnegative ty then vr
  else if !vr.isRange || vr.isSymbolic then varying
  else if !ty.overflowUndefined && vr.min.isMin ty then varying
  else match absBound? ty vr.min, absBound? ty vr.max with
    | some min, some max =>
        if min = .posInf ∧ max = .posInf then varying
        else absInterval ty (vr.includesZero? ty == some true) min max
    | _, _ => varying

/-- Magnitude or conversion of a range that is not split. -/
def absOrConvert (op : UnaryOp) (source target : ScalarType) (vr : ValueRange) : ValueRange :=
  if op = .abs then absolute target vr else convert source target vr

/-- Magnitude or conversion of a range. Complements of intervals are split. -/
def unaryOfSplit (op : UnaryOp) (source target : ScalarType) (vr : ValueRange) : ValueRange :=
  match if source.isPointer then none else splitAnti? source vr with
  | some (first, some second) =>
      meet target (absOrConvert op source target first) (absOrConvert op source target second)
  | some (first, none) => absOrConvert op source target first
  | none => absOrConvert op source target vr

/-- A range for the operator's result on a value of the range. -/
def unary (op : UnaryOp) (source target : ScalarType) (vr : ValueRange) : ValueRange :=
  if !source.isTracked || !target.isTracked then varying
  else if vr.isUndefined then undefined
  else match op with
    | .negate => binary .sub target (singleton 0) vr
    | .bitNot => binary .sub target (singleton (-1)) vr
    | .truthNot | .floatToInt | .intToFloat => foldSingle op source target vr
    | .convert => if target.isPointer then toPointer source vr
        else unaryOfSplit .convert source target vr
    | .abs => unaryOfSplit .abs source target vr

end RangeFlow.ValueRange
