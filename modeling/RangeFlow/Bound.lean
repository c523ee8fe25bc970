import RangeFlow.Ident
import RangeFlow.Scalar
import RangeFlow.Wide

/-! # Bounds

An end of a range: a constant, a name plus an offset, or an infinity that stands for an end which
overflow would pass.
-/

namespace RangeFlow

/-- An end of a range. -/
inductive Bound where
  /-- Below every value, reached only by an overflow that is undefined. -/
  | negInf
  | const (value : Int)
  /-- The value of a name plus an offset. -/
  | symbolic (name : NameId) (offset : Int)
  /-- Above every value, reached only by an overflow that is undefined. -/
  | posInf
  deriving Repr, DecidableEq

namespace Bound

/-- The value of a name. -/
def ofName (name : NameId) : Bound := symbolic name 0

/-- The lower end of a range that has been pushed past the least value of the type. -/
def negativeExtreme (ty : ScalarType) : Bound :=
  if ty.overflowUndefined then negInf else const ty.minValue

/-- The upper end of a range that has been pushed past the greatest value of the type. -/
def positiveExtreme (ty : ScalarType) : Bound :=
  if ty.overflowUndefined then posInf else const ty.maxValue

/-- The constant, if the bound is one. -/
def const? : Bound → Option Int
  | const c => some c
  | _ => none

/-- The number a bound without a name stands for; infinities are the ends of the type. -/
def concrete? (ty : ScalarType) : Bound → Option Int
  | negInf => some ty.minValue
  | const c => some c
  | symbolic _ _ => none
  | posInf => some ty.maxValue

/-- Does the bound mention a name? -/
def isSymbolic : Bound → Bool
  | symbolic _ _ => true
  | _ => false

/-- Is the bound independent of names? -/
def isInvariant (b : Bound) : Bool := !b.isSymbolic

/-- Is the bound an infinity? -/
def isInfinity : Bound → Bool
  | negInf | posInf => true
  | _ => false

/-- Does the bound stand for the least value of the type? -/
def isMin (ty : ScalarType) (b : Bound) : Bool := b.concrete? ty == some ty.minValue

/-- Does the bound stand for the greatest value of the type? -/
def isMax (ty : ScalarType) (b : Bound) : Bool := b.concrete? ty == some ty.maxValue

/-- Is the bound the constant zero? -/
def isZero (b : Bound) : Bool := b == const 0

/-- The name a bound mentions. -/
def base? : Bound → Option NameId
  | symbolic n _ => some n
  | _ => none

/-- The bound moved by `delta`. A constant has to stay in the type, an infinity does not move. -/
def offsetBy? (ty : ScalarType) (delta : Int) : Bound → Option Bound
  | const c => ((Wide.add? c delta).filter ty.fits).map const
  | symbolic n offset => (Wide.add? offset delta).map (symbolic n)
  | negInf => none
  | posInf => none

/-- The written form of the bound. -/
protected def toString : Bound → String
  | negInf => "-INF(OVF)"
  | posInf => "+INF(OVF)"
  | const c => toString c
  | symbolic n offset =>
      if offset = 0 then nameText n
      else if offset < 0 then nameText n ++ " - " ++ toString offset.natAbs
      else nameText n ++ " + " ++ toString offset

instance : ToString Bound := ⟨Bound.toString⟩

end Bound

end RangeFlow
