import RangeFlow.Range.Lattice
import RangeFlow.Transfer.Query

/-! # Refining by an assertion

A name that satisfies a predicate has a smaller range than before.
-/

namespace RangeFlow

/-- The bound an operand stands for. -/
def Operand.toBound : Operand → Bound
  | .const c => .const c
  | .name n => .ofName n

namespace Query

/-- The range of a limit, if it has ends without names. -/
def limitRange? (query : Query) : Operand → Option ValueRange
  | .const c => some (.singleton c)
  | .name n =>
      let vr := query.rangeOf n
      if vr.isBounded && !vr.isSymbolic then some vr else none

/-- A bound moved by one step. From an infinity the step leads to the value next to the end of the
    type. -/
def stepBound (ty : ScalarType) (delta : Int) : Bound → Bound
  | .posInf => .const (ty.maxValue - 1)
  | .negInf => .const (ty.minValue + 1)
  | .const c => .const (c + delta)
  | .symbolic n offset => .symbolic n (offset + delta)

/-- The interval between two bounds, unless they are out of order or the ends of the type. -/
def rangeOrVarying (ty : ScalarType) (min max : Bound) : ValueRange :=
  if Bound.compare ty min max == .greater then .varying
  else if min.isMin ty && max.isMax ty then .varying
  else .canonical ty (.inside min max)

/-- The values at most, or with `strict` below, an upper end. -/
def atMost (ty : ScalarType) (strict : Bool) (max : Bound) : ValueRange :=
  let least := Bound.const ty.minValue
  if strict then
    if Bound.compare ty max least == .equal then .varying
    else rangeOrVarying ty least (stepBound ty (-1) max)
  else rangeOrVarying ty least max

/-- The values at least, or with `strict` above, a lower end. -/
def atLeast (ty : ScalarType) (strict : Bool) (min : Bound) : ValueRange :=
  let greatest := Bound.const ty.maxValue
  if strict then
    if Bound.compare ty min greatest == .equal then .varying
    else rangeOrVarying ty (stepBound ty 1 min) greatest
  else rangeOrVarying ty min greatest

/-- The values that compare to a limit whose range is known to have ends without names. -/
def impliedByRange (op : CmpOp) (ty : ScalarType) (limit : ValueRange) : ValueRange :=
  match op with
  | .eq => .canonical ty limit.extent
  | .ne =>
      if limit.isRange && limit.min == limit.max then
        .canonical ty (.outside limit.min limit.max)
      else .varying
  | .le | .lt => if limit.isAnti then .varying else atMost ty (op == .lt) limit.max
  | .ge | .gt => if limit.isAnti then .varying else atLeast ty (op == .gt) limit.min

/-- The values that compare to a limit of which only the name is known. -/
def impliedByBound (op : CmpOp) (ty : ScalarType) (limit : Bound) : ValueRange :=
  match op with
  | .eq => .range limit limit
  | .ne => .anti limit limit
  | .le | .lt => atMost ty (op == .lt) limit
  | .ge | .gt => atLeast ty (op == .gt) limit

/-- The values that satisfy a predicate. -/
def implied (query : Query) (ty : ScalarType) : Predicate → ValueRange
  | .within low high negated =>
      .canonical ty (if negated then .outside (.const low) (.const high)
        else .inside (.const low) (.const high))
  | .compare op limit =>
      match query.limitRange? limit with
      | some vr => impliedByRange op ty vr
      | none => impliedByBound op ty limit.toBound

/-- The names that equal a name which satisfies a predicate: itself, and the limit it is equal to
    with all its equals. -/
def assertedEquals (query : Query) (name : NameId) : Predicate → IdSet
  | .compare .eq (.name limit) =>
      ((IdSet.singleton name).insert limit).union (query.rangeOf limit).equiv
  | _ => .singleton name

/-- The range of a name that satisfies a predicate. Pointers are only compared for equality. -/
def assertResult (query : Query) (name : NameId) (predicate : Predicate) (ty : ScalarType) :
    ValueRange :=
  if !ty.isTracked then .varying
  else
    let ordering :=
      match predicate with
      | .compare op _ => !op.isEquality
      | .within _ _ _ => false
    if ty.isPointer && ordering then .varying
    else
      ((query.rangeOf name).intersect ty
        ((query.implied ty predicate).withEquiv (query.assertedEquals name predicate)))

end Query

end RangeFlow
