import RangeFlow.Scalar

/-! # Configuration of the analysis -/

namespace RangeFlow

/-- What the analysis may assume and how far it goes. -/
structure Config where
  /-- Overflow of signed types that do not wrap is undefined. -/
  strictOverflow : Bool := true
  /-- A pointer that has been read or written through is not null. -/
  deleteNullPointerChecks : Bool := true
  /-- Statements other than calls may raise exceptions. -/
  nonCallExceptions : Bool := false
  /-- Ranges of loop variables are narrowed by their evolution. -/
  useEvolution : Bool := true
  /-- Assertions are put into the function before the analysis. -/
  insertAssertions : Bool := true
  /-- After this many visits the analysis gives up. -/
  maxVisits : Nat := 1000000
  deriving Repr, DecidableEq

/-- The type as the configuration has it: without strict overflow all arithmetic wraps. -/
def Config.effectiveType (config : Config) (ty : ScalarType) : ScalarType :=
  if config.strictOverflow then ty else ty.wrapping

end RangeFlow
