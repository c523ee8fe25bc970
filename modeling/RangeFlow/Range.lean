import RangeFlow.Bound
import RangeFlow.IdSet

/-! # Value ranges

What is known about the values of a name: nothing yet, an interval, the complement of an interval,
or nothing at all; and the names that are known to hold the same value.
-/

namespace RangeFlow

/-- The four kinds of knowledge about a value. -/
inductive RangeKind where
  | undefined
  | range
  | antiRange
  | varying
  deriving Repr, DecidableEq

/-- The written form of the kind. -/
protected def RangeKind.toString : RangeKind → String
  | undefined => "UNDEFINED"
  | range => "RANGE"
  | antiRange => "ANTI_RANGE"
  | varying => "VARYING"

instance : ToString RangeKind := ⟨RangeKind.toString⟩

/-- The values a name may hold. -/
inductive Extent where
  /-- No value has been seen. -/
  | undefined
  /-- The values from `min` to `max`. -/
  | inside (min max : Bound)
  /-- The values of the type that are not between `min` and `max`. -/
  | outside (min max : Bound)
  /-- Any value of the type. -/
  | varying
  deriving Repr, DecidableEq

namespace Extent

/-- The kind of knowledge. -/
def kind : Extent → RangeKind
  | undefined => .undefined
  | inside _ _ => .range
  | outside _ _ => .antiRange
  | varying => .varying

/-- The extent of the given kind and ends; the ends count only for intervals. -/
def ofKind (kind : RangeKind) (min max : Bound) : Extent :=
  match kind with
  | .undefined => undefined
  | .range => inside min max
  | .antiRange => outside min max
  | .varying => varying

/-- The lower end; zero if there are no ends. -/
def min : Extent → Bound
  | inside lo _ | outside lo _ => lo
  | undefined | varying => .const 0

/-- The upper end; zero if there are no ends. -/
def max : Extent → Bound
  | inside _ hi | outside _ hi => hi
  | undefined | varying => .const 0

/-- Is it an interval? -/
def isRange : Extent → Bool
  | inside _ _ => true
  | _ => false

/-- Is it the complement of an interval? -/
def isAnti : Extent → Bool
  | outside _ _ => true
  | _ => false

/-- Does it have ends? -/
def isBounded : Extent → Bool
  | inside _ _ | outside _ _ => true
  | _ => false

/-- Does an end mention a name? -/
def isSymbolic (e : Extent) : Bool :=
  e.isBounded && (e.min.isSymbolic || e.max.isSymbolic)

/-- Is an end an infinity? -/
def usesInfinity (e : Extent) : Bool :=
  e.isBounded && (e.min.isInfinity || e.max.isInfinity)

/-- The numbers the ends stand for, if there are ends and none of them mentions a name. -/
def constBounds? (ty : ScalarType) (e : Extent) : Option (Int × Int) :=
  if e.isBounded then do
    return (← e.min.concrete? ty, ← e.max.concrete? ty)
  else none

/-- The same values written with ends in order: an interval whose ends are out of order passes
    through the ends of the type, and its complement is an interval in order. Infinities and
    complements that are empty give no knowledge. -/
def ordered (ty : ScalarType) (e : Extent) : Extent :=
  match e.min.concrete? ty, e.max.concrete? ty with
  | some lo, some hi =>
      if hi < lo then
        match e.min, e.max with
        | .const _, .const _ =>
            if lo - 1 < hi + 1 then varying
            else match e with
              | inside _ _ => outside (.const (hi + 1)) (.const (lo - 1))
              | _ => inside (.const (hi + 1)) (.const (lo - 1))
        | _, _ => varying
      else e
  | _, _ => varying

/-- The same values written as an interval if one end of the missing interval is an end of the
    type. For a type without negative values, missing zero alone stays the complement of zero. -/
def preferRange (ty : ScalarType) : Extent → Extent
  | outside lo hi =>
      if lo.isMin ty && hi.isMax ty then varying
      else if lo.isMin ty && !(!ty.signed && hi.isZero) then
        match hi.concrete? ty with
        | some h => inside (.const (h + 1)) (.const ty.maxValue)
        | none => varying
      else if hi.isMax ty then
        match lo.concrete? ty with
        | some l => inside (.const ty.minValue) (.const (l - 1))
        | none => varying
      else outside lo hi
  | e => e

/-- The interval of all values of the type is no knowledge. -/
def dropFull (ty : ScalarType) : Extent → Extent
  | inside lo hi => if lo.isMin ty && hi.isMax ty then varying else inside lo hi
  | e => e

/-- The normal form of an extent. Ends that mention names are kept as they are. -/
def canonical (ty : ScalarType) (e : Extent) : Extent :=
  match e with
  | undefined => undefined
  | varying => varying
  | _ => if e.isSymbolic then e else ((e.ordered ty).preferRange ty).dropFull ty

/-- May the number be among the values? Ends that mention names exclude nothing. -/
def contains (ty : ScalarType) (e : Extent) (value : Int) : Bool :=
  match e with
  | undefined => false
  | varying => true
  | inside _ _ =>
      match e.constBounds? ty with
      | some (lo, hi) => decide (lo ≤ value ∧ value ≤ hi)
      | none => true
  | outside _ _ =>
      match e.constBounds? ty with
      | some (lo, hi) => !decide (lo ≤ value ∧ value ≤ hi)
      | none => true

/-- The written form of the extent. -/
protected def toString : Extent → String
  | undefined => "UNDEFINED"
  | varying => "VARYING"
  | inside lo hi => "[" ++ toString lo ++ ", " ++ toString hi ++ "]"
  | outside lo hi => "~[" ++ toString lo ++ ", " ++ toString hi ++ "]"

instance : ToString Extent := ⟨Extent.toString⟩

end Extent

/-- What is known about the value of a name. -/
structure ValueRange where
  /-- The values it may hold. -/
  extent : Extent
  /-- The names that hold the same value. -/
  equiv : IdSet
  deriving Repr, DecidableEq

namespace ValueRange

/-- Knowledge about values alone. -/
def ofExtent (extent : Extent) : ValueRange := ⟨extent, ∅⟩

/-- No value has been seen. -/
def undefined : ValueRange := ofExtent .undefined

/-- Any value is possible. -/
def varying : ValueRange := ofExtent .varying

/-- The values from `min` to `max`. -/
def range (min max : Bound) : ValueRange := ofExtent (.inside min max)

/-- The values that are not between `min` and `max`. -/
def anti (min max : Bound) : ValueRange := ofExtent (.outside min max)

/-- One value. -/
def singleton (value : Int) : ValueRange := range (.const value) (.const value)

/-- The null pointer. -/
def null : ValueRange := singleton 0

/-- Any pointer but the null pointer. -/
def nonnull : ValueRange := anti (.const 0) (.const 0)

/-- The value of a name. -/
def sameAs (name : NameId) : ValueRange := range (.ofName name) (.ofName name)

/-- All values of the type, as an interval. -/
def full (ty : ScalarType) : ValueRange := range (.const ty.minValue) (.const ty.maxValue)

/-- The normal form of an interval or complement, without equivalent names. -/
def canonical (ty : ScalarType) (extent : Extent) : ValueRange := ofExtent (extent.canonical ty)

instance : Inhabited ValueRange := ⟨undefined⟩

/-- The kind of knowledge. -/
def kind (vr : ValueRange) : RangeKind := vr.extent.kind

/-- The lower end. -/
def min (vr : ValueRange) : Bound := vr.extent.min

/-- The upper end. -/
def max (vr : ValueRange) : Bound := vr.extent.max

/-- Has no value been seen? -/
def isUndefined (vr : ValueRange) : Bool := vr.extent == .undefined

/-- Is any value possible? -/
def isVarying (vr : ValueRange) : Bool := vr.extent == .varying

/-- Is it an interval? -/
def isRange (vr : ValueRange) : Bool := vr.extent.isRange

/-- Is it the complement of an interval? -/
def isAnti (vr : ValueRange) : Bool := vr.extent.isAnti

/-- Does it have ends? -/
def isBounded (vr : ValueRange) : Bool := vr.extent.isBounded

/-- Does an end mention a name? -/
def isSymbolic (vr : ValueRange) : Bool := vr.extent.isSymbolic

/-- Is an end an infinity? -/
def usesInfinity (vr : ValueRange) : Bool := vr.extent.usesInfinity

/-- Is zero the one value that is excluded? -/
def isNonnull (vr : ValueRange) : Bool := vr.isAnti && vr.min.isZero && vr.max.isZero

/-- Is zero the one value? -/
def isNull (vr : ValueRange) : Bool := vr.isRange && vr.min.isZero && vr.max.isZero

/-- The one value, if it is a constant. -/
def single? (vr : ValueRange) : Option Int :=
  match vr.extent with
  | .inside (.const lo) (.const hi) => if lo = hi then some lo else none
  | _ => none

/-- The numbers the ends stand for. -/
def constBounds? (ty : ScalarType) (vr : ValueRange) : Option (Int × Int) :=
  vr.extent.constBounds? ty

/-- May the number be among the values? -/
def contains (ty : ScalarType) (vr : ValueRange) (value : Int) : Bool :=
  vr.extent.contains ty value

/-- Is no value negative? -/
def isNonnegative (ty : ScalarType) (vr : ValueRange) : Bool :=
  if ty.signed then vr.isRange && (vr.min.concrete? ty).any fun lo => decide (0 ≤ lo)
  else !vr.isUndefined

/-- Do two ranges say the same about values, whatever they say about names? -/
def sameBounds (a b : ValueRange) : Bool := a.extent == b.extent

/-- The same values with these equivalent names; only knowledge with ends carries any. -/
def withEquiv (vr : ValueRange) (equiv : IdSet) : ValueRange :=
  if vr.isBounded then { vr with equiv } else vr

/-- The same values, with a name and the names known to equal it as further equivalent names. -/
def addEquivalence (vr : ValueRange) (name : NameId) (known : IdSet) : ValueRange :=
  { vr with equiv := (vr.equiv.insert name).union known }

/-- The written form of the range. -/
protected def toString (vr : ValueRange) : String :=
  if vr.equiv.isEmpty then toString vr.extent
  else
    toString vr.extent ++ "  EQUIVALENCES: \x7b " ++
      String.join (vr.equiv.toList.map fun n => nameText n ++ " ") ++
      "\x7d (" ++ toString vr.equiv.size ++ " elements)"

instance : ToString ValueRange := ⟨ValueRange.toString⟩

end ValueRange

end RangeFlow
