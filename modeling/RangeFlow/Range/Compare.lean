import RangeFlow.Bound.Order
import RangeFlow.Operator
import RangeFlow.Range

/-! # Comparing ranges

Decides a comparison from what is known about its two sides. Every answer is true of all pairs of
values the ranges admit, and it carries the record of whether it rests on undefined overflow.
-/

namespace RangeFlow.ValueRange

/-- May the two intervals, or the intervals that are missing, have a value in common? -/
def overlaps (ty : ScalarType) (a b : ValueRange) : Bool :=
  Bound.inside? ty b.min a.min a.max != some false ||
    Bound.inside? ty a.min b.min b.max != some false

/-- Is zero among the values, if that is known? -/
def includesZero? (ty : ScalarType) (vr : ValueRange) : Option Bool :=
  if vr.isBounded then
    (Bound.inside? ty (.const 0) vr.min vr.max).map (· == vr.isRange)
  else none

/-- Is every value known to differ from zero, without reading a name? -/
def excludesZero (ty : ScalarType) (vr : ValueRange) : Bool :=
  !vr.isSymbolic && vr.includesZero? ty == some false

/-- Can the interval be compared at all? One with two infinities holds no information, and one
    infinity makes every conclusion rest on undefined overflow. -/
def usable (vr : ValueRange) : Assuming Bool :=
  if vr.min.isInfinity then Assuming.noOverflow !vr.max.isInfinity
  else ⟨true, vr.max.isInfinity⟩

/-- Is it an interval with an infinity? -/
def isInfiniteRange (vr : ValueRange) : Bool := vr.isRange && vr.usesInfinity

/-- Is the order of two bounds the given one? -/
def ordered (ty : ScalarType) (order : ValueOrder) (a b : Bound) : Assuming Bool := do
  return (← Bound.compareAssuming ty a b) == order

/-- Equality of an interval and the complement of one: they cannot be equal if one is the
    complement of the other. -/
def compareWithAnti (op : CmpOp) (ty : ScalarType) (anti range : ValueRange) :
    Assuming (Option Bool) := do
  let same ← Assuming.both (ordered ty .equal anti.min range.min)
    (ordered ty .equal anti.max range.max)
  return if same then some (op == .ne) else none

/-- Are all values of the first interval equal to all values of the second? -/
def equalRanges (ty : ScalarType) (a b : ValueRange) : Assuming (Option Bool) := do
  let single ← Assuming.both (ordered ty .equal a.min a.max) (ordered ty .equal b.min b.max)
  if single then
    let low ← Bound.compareAssuming ty a.min b.min
    let high ← Bound.compareAssuming ty a.max b.max
    return if low == .equal && high == .equal then some true
      else if low != .unknown && high != .unknown then some false
      else none
  else
    let apart ← Assuming.either (ordered ty .greater a.min b.max) (ordered ty .greater b.min a.max)
    return if apart then some false else none

/-- Do all values of the first interval differ from all values of the second? -/
def distinctRanges (ty : ScalarType) (a b : ValueRange) : Assuming (Option Bool) := do
  let above ← Bound.compareAssuming ty a.max b.min
  let below ← Bound.compareAssuming ty a.min b.max
  if (above == .less && below == .less) || (above == .greater && below == .greater) then
    return some true
  let same ← Assuming.both (ordered ty .equal a.min a.max)
    (Assuming.both (ordered ty .equal b.min b.max)
      (Assuming.both (ordered ty .equal a.min b.min) (ordered ty .equal a.max b.max)))
  return if same then some false else none

/-- Are all values of the first interval below, or with `strict` off at most, all values of the
    second? -/
def belowRanges (strict : Bool) (ty : ScalarType) (a b : ValueRange) :
    Assuming (Option Bool) := do
  let infinite := a.isInfiniteRange || b.isInfiniteRange
  let left ← Bound.compareAssuming ty a.max b.min
  if (strict && left == .less) || (!strict && left.isLe) then
    ⟨some true, infinite⟩
  else
    let right ← Bound.compareAssuming ty a.min b.max
    if (strict && right.isGe) || (!strict && right == .greater) then
      ⟨some false, infinite⟩
    else
      return none

/-- Decide a comparison of two intervals. -/
def compareIntervals (op : CmpOp) (ty : ScalarType) (a b : ValueRange) : Assuming (Option Bool) :=
  match op with
  | .eq => equalRanges ty a b
  | .ne => distinctRanges ty a b
  | .lt => belowRanges true ty a b
  | .le => belowRanges false ty a b
  | .gt => belowRanges true ty b a
  | .ge => belowRanges false ty b a

/-- Decide a comparison of a value in the first range with a value in the second. -/
def compare (op : CmpOp) (ty : ScalarType) (a b : ValueRange) : Assuming (Option Bool) := do
  if !a.isBounded || !b.isBounded then
    return none
  else if a.isAnti || b.isAnti then
    if (a.isAnti && b.isAnti) || !op.isEquality then return none
    else if a.isAnti then compareWithAnti op ty a b
    else compareWithAnti op ty b a
  else if ← Assuming.both a.usable b.usable then
    compareIntervals op ty a b
  else
    return none

/-- Decide the comparison of an interval with a bound. -/
def compareIntervalWithBound (op : CmpOp) (ty : ScalarType) (vr : ValueRange) (value : Bound) :
    Assuming (Option Bool) := do
  match op with
  | .eq =>
      if ← ordered ty .equal vr.min vr.max then
        match ← Bound.compareAssuming ty vr.min value with
        | .equal => return some true
        | .less | .greater | .notEqual => return some false
        | .unknown => return none
      else
        let apart ← Assuming.either (ordered ty .less value vr.min) (ordered ty .less vr.max value)
        return if apart then some false else none
  | .ne =>
      if ← Assuming.either (ordered ty .less vr.max value) (ordered ty .greater vr.min value) then
        return some true
      else
        let same ← Assuming.both (ordered ty .equal vr.min vr.max) (ordered ty .equal vr.min value)
        return if same then some false else none
  | .lt | .le =>
      let strict := op == .lt
      let left ← Bound.compareAssuming ty vr.max value
      if (strict && left == .less) || (!strict && left.isLe) then
        ⟨some true, vr.isInfiniteRange⟩
      else
        let right ← Bound.compareAssuming ty vr.min value
        if (strict && right.isGe) || (!strict && right == .greater) then
          ⟨some false, vr.isInfiniteRange⟩
        else
          return none
  | .gt | .ge =>
      let strict := op == .gt
      let right ← Bound.compareAssuming ty vr.min value
      if (strict && right == .greater) || (!strict && right.isGe) then
        ⟨some true, vr.isInfiniteRange⟩
      else
        let left ← Bound.compareAssuming ty vr.max value
        if (strict && left.isLe) || (!strict && left == .less) then
          ⟨some false, vr.isInfiniteRange⟩
        else
          return none

/-- Decide a comparison of a value in the range with a bound. -/
def compareWithBound (op : CmpOp) (ty : ScalarType) (vr : ValueRange) (value : Bound) :
    Assuming (Option Bool) := do
  if !vr.isBounded then
    return none
  else if vr.isAnti then
    return if op.isEquality && Bound.inside? ty value vr.min vr.max == some true then
      some (op == .ne)
    else none
  else if ← vr.usable then
    compareIntervalWithBound op ty vr value
  else
    return none

end RangeFlow.ValueRange
