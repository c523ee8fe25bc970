import RangeFlow.Bound
import RangeFlow.Assuming

/-! # Comparing bounds

Two bounds compare if both are constants or infinities, or if they are offsets of one name whose
arithmetic cannot wrap. A comparison that leans on undefined overflow says so.
-/

namespace RangeFlow

/-- What is known about the order of two bounds. -/
inductive ValueOrder where
  | less
  | equal
  | greater
  /-- The bounds differ, in an unknown direction. -/
  | notEqual
  | unknown
  deriving Repr, DecidableEq

namespace ValueOrder

/-- The order of the exchanged bounds. -/
def reverse : ValueOrder → ValueOrder
  | less => greater
  | greater => less
  | order => order

/-- Is the first bound known to be at most the second? -/
def isLe : ValueOrder → Bool
  | less | equal => true
  | _ => false

/-- Is the first bound known to be at least the second? -/
def isGe : ValueOrder → Bool
  | greater | equal => true
  | _ => false

/-- The order of two numbers. -/
def ofInts (a b : Int) : ValueOrder :=
  if a < b then less else if a = b then equal else greater

/-- The written form of the order. -/
protected def toString : ValueOrder → String
  | less => "Less"
  | equal => "Equal"
  | greater => "Greater"
  | notEqual => "NotEqual"
  | unknown => "Unknown"

instance : ToString ValueOrder := ⟨ValueOrder.toString⟩

end ValueOrder

namespace Bound

/-- The order of two bounds, and whether it rests on overflow being undefined: offsets of one name
    are ordered by their offsets only if the sums cannot wrap, and infinities lie outside every
    value only if no value overflows. -/
def compareAssuming (ty : ScalarType) (a b : Bound) : Assuming ValueOrder :=
  if a = b then pure .equal
  else match a, b with
    | symbolic n c, symbolic m d =>
        if n = m && ty.overflowUndefined then Assuming.noOverflow (.ofInts c d) else pure .unknown
    | symbolic _ _, _ => pure .unknown
    | _, symbolic _ _ => pure .unknown
    | const c, const d => pure (.ofInts c d)
    | negInf, _ => Assuming.noOverflow .less
    | _, posInf => Assuming.noOverflow .less
    | _, _ => Assuming.noOverflow .greater

/-- The order of two bounds. Offsets of one name are ordered only if they are equal. -/
def compare (ty : ScalarType) (a b : Bound) : ValueOrder :=
  let order := compareAssuming ty a b
  if order.overflow && !(a.isInvariant && b.isInvariant) then .unknown else order.value

/-- Is the first bound below the second, if that is known? An infinity lies beyond the end of the
    type that it stands for. -/
def less? (ty : ScalarType) (a b : Bound) : Option Bool :=
  match a.concrete? ty, b.concrete? ty with
  | some x, some y =>
      if x < y then some true
      else if a = negInf then some (b != negInf)
      else some (b == posInf && a != posInf)
  | _, _ =>
      match compare ty a b with
      | .less => some true
      | .equal | .greater => some false
      | .notEqual | .unknown => none

/-- Is the first bound known to be below the second? -/
def less (ty : ScalarType) (a b : Bound) : Bool := less? ty a b == some true

/-- Does the bound lie between `min` and `max`, if that is known? -/
def inside? (ty : ScalarType) (b min max : Bound) : Option Bool := do
  if ← less? ty b min then
    return false
  return !(← less? ty max b)

end Bound

end RangeFlow
