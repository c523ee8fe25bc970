import RangeFlow.Operand
import RangeFlow.Range

/-! # Knowledge about names

A query answers what is known about each name, and of which type it is.
-/

namespace RangeFlow

/-- What is known about the names of a program at one moment. -/
structure Query where
  /-- The values a name may hold. -/
  rangeOf : NameId → ValueRange
  /-- The type of a name. -/
  typeOf : NameId → ScalarType

namespace Query

/-- The values an operand may have. -/
def operandRange (query : Query) : Operand → ValueRange
  | .const c => .singleton c
  | .name n => query.rangeOf n

/-- The one constant an operand may be. -/
def constant? (query : Query) : Operand → Option Int
  | .const c => some c
  | .name n => (query.rangeOf n).single?

/-- The type of an operand; literals take the type of their place. -/
def operandType (query : Query) (place : ScalarType) : Operand → ScalarType
  | .const _ => place
  | .name n => query.typeOf n

end Query

end RangeFlow
