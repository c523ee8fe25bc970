import RangeFlow.Range.Compare

/-! # Joining and intersecting ranges

`meet` covers the values of both ranges, for a name that may hold a value of either. `intersect`
keeps the values that lie in both, as far as one interval or one complement can say it.
-/

namespace RangeFlow.ValueRange

/-- The knowledge left when two ranges have no common cover with ends: only that neither holds
    zero, if that is so. -/
def giveUp (ty : ScalarType) (a b : ValueRange) : ValueRange :=
  if a.excludesZero ty && b.excludesZero ty then nonnull else varying

/-- The lower of two lower ends, if they compare. -/
def lowerEnd? (ty : ScalarType) (a b : Bound) : Option Bound :=
  match Bound.compare ty a b with
  | .equal | .greater => some b
  | .less => some a
  | .notEqual | .unknown => none

/-- The higher of two upper ends, if they compare. -/
def upperEnd? (ty : ScalarType) (a b : Bound) : Option Bound :=
  match Bound.compare ty a b with
  | .equal | .less => some b
  | .greater => some a
  | .notEqual | .unknown => none

/-- A cover with ends of two ranges that have ends. -/
def cover? (ty : ScalarType) (a b : ValueRange) : Option Extent :=
  match a.extent, b.extent with
  | .inside min0 max0, .inside min1 max1 => do
      let min ← lowerEnd? ty min0 min1
      let max ← upperEnd? ty max0 max1
      if ty.isIntegral && min.isMin ty && max.isMax ty then none
      else some (.inside min max)
  | .outside min0 max0, .outside min1 max1 =>
      if Bound.compare ty min0 min1 == .equal && Bound.compare ty max0 max1 == .equal &&
          Bound.compare ty min0 max0 == .equal then
        some (.outside min0 max0)
      else none
  | _, _ =>
      if a.isSymbolic || b.isSymbolic || a.overlaps ty b then none
      else some (if a.isAnti then a.extent else b.extent)

/-- A range that holds every value of both. Names stay equivalent if they are equivalent in both,
    or if the other range holds no value at all. -/
def meet (ty : ScalarType) (a b : ValueRange) : ValueRange :=
  match a.extent, b.extent with
  | .undefined, _ => b
  | _, .undefined => a
  | .varying, _ => varying
  | _, .varying => varying
  | _, _ =>
      match cover? ty a b with
      | some extent => (ofExtent extent).withEquiv (a.equiv.inter b.equiv)
      | none => giveUp ty a b

/-- The bound after `b`, if `b` mentions no name and is not the end of the type. -/
def plusOne (ty : ScalarType) (b : Bound) : Bound :=
  match ((b.concrete? ty).bind (Wide.add? · 1)).filter ty.fits with
  | some v => .const v
  | none => b

/-- The bound before `b`, if `b` mentions no name and is not the end of the type. -/
def minusOne (ty : ScalarType) (b : Bound) : Bound :=
  match ((b.concrete? ty).bind (Wide.sub? · 1)).filter ty.fits with
  | some v => .const v
  | none => b

/-- Are the bounds constants that follow each other? -/
def adjacent : Bound → Bound → Bool
  | .const a, .const b => Wide.add? a 1 == some b
  | _, _ => false

/-- The common values of two extents with ends whose intervals have no bound in common. -/
def commonOfApart (ty : ScalarType) (a b : Extent) : Extent :=
  match a, b with
  | .inside _ _, .outside _ _ => a
  | .outside _ _, .inside _ _ => b
  | .inside _ _, .inside _ _ => .undefined
  | _, _ =>
      if Bound.less ty a.max b.min && adjacent a.max b.min then .outside a.min b.max
      else if Bound.less ty b.max a.min && adjacent b.max a.min then .outside b.min a.max
      else a

/-- The common values of two extents with ends, where the interval of the second lies in the
    interval of the first. -/
def commonOfNested (ty : ScalarType) (outer inner : Extent) : Extent :=
  match outer, inner with
  | .inside _ _, .inside _ _ => inner
  | .inside min0 max0, .outside min1 max1 =>
      if min0 = min1 then .inside (plusOne ty max1) max0
      else if max0 = max1 then .inside min0 (minusOne ty min1)
      else if min0.isMin ty && max0.isMax ty then inner
      else outer
  | .outside _ _, .outside _ _ => outer
  | _, _ => .undefined

/-- The common values of two extents with ends, where the interval of the first starts and ends
    before the interval of the second. -/
def commonOfStaggered (ty : ScalarType) (first second : Extent) : Extent :=
  match first, second with
  | .inside _ max0, .inside min1 _ => .inside min1 max0
  | .inside min0 _, .outside min1 _ => .inside min0 (minusOne ty min1)
  | .outside _ max0, .inside _ max1 => .inside (plusOne ty max0) max1
  | _, _ => .outside first.min second.max

/-- The common values of two extents with ends, by the position of their intervals. Where no
    single extent says it, one of the two is the answer. -/
def common (ty : ScalarType) (a b : Extent) : Extent :=
  let less := Bound.less ty
  let sameMin := decide (a.min = b.min)
  let sameMax := decide (a.max = b.max)
  if sameMin && sameMax then
    if a.kind = b.kind then a else .undefined
  else if less a.max b.min || less b.max a.min then
    commonOfApart ty a b
  else if (sameMax || less b.max a.max) && (sameMin || less a.min b.min) then
    commonOfNested ty a b
  else if (sameMax || less a.max b.max) && (sameMin || less b.min a.min) then
    commonOfNested ty b a
  else if (less b.min a.max || decide (b.min = a.max)) && less a.min b.min then
    commonOfStaggered ty a b
  else if (less a.min b.max || decide (a.min = b.max)) && less b.min a.min then
    commonOfStaggered ty b a
  else a

/-- The values in both ranges, or a cover of them. Names equivalent in either range are
    equivalent in the result. -/
def intersect (ty : ScalarType) (a b : ValueRange) : ValueRange :=
  match a.extent, b.extent with
  | .undefined, _ => undefined
  | _, .undefined => undefined
  | _, .varying => a
  | .varying, _ => b
  | _, _ =>
      let result := canonical ty (common ty a.extent b.extent)
      if result.isVarying then a else result.withEquiv (a.equiv.union b.equiv)

end RangeFlow.ValueRange
