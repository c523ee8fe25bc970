import RangeFlow.Power

/-! # Wide integers

Values of every scalar type have at most 64 bits. The analysis computes on them in a signed word
of 128 bits; an operation whose exact result leaves that word has no result.
-/

namespace RangeFlow.Wide

/-- The least number a wide word holds. -/
def least : Int := -(twoPow 127 : Int)

/-- The greatest number a wide word holds. -/
def greatest : Int := (twoPow 127 : Int) - 1

/-- Does the number fit a wide word? -/
def fits (x : Int) : Bool :=
  decide (least ≤ x) && decide (x ≤ greatest)

/-- The number itself, if a wide word holds it. -/
def check (x : Int) : Option Int :=
  if fits x then some x else none

/-- Sum, if it fits. -/
def add? (a b : Int) : Option Int := check (a + b)

/-- Difference, if it fits. -/
def sub? (a b : Int) : Option Int := check (a - b)

/-- Product, if it fits. -/
def mul? (a b : Int) : Option Int := check (a * b)

/-- Opposite, if it fits. -/
def neg? (a : Int) : Option Int := check (-a)

/-- Magnitude, if it fits. -/
def abs? (a : Int) : Option Int := check a.natAbs

/-- Quotient rounded towards zero. There is none by zero, and none that leaves the word. -/
def div? (a b : Int) : Option Int :=
  if b = 0 then none else check (a.tdiv b)

/-- Remainder of the quotient rounded towards zero, where that quotient exists. -/
def rem? (a b : Int) : Option Int :=
  (div? a b).map fun _ => a.tmod b

/-- Bitwise conjunction of the two's complement words. -/
def and (a b : Int) : Int :=
  (BitVec.ofInt 128 a &&& BitVec.ofInt 128 b).toInt

/-- Bitwise disjunction of the two's complement words. -/
def or (a b : Int) : Int :=
  (BitVec.ofInt 128 a ||| BitVec.ofInt 128 b).toInt

/-- Bitwise exclusive disjunction of the two's complement words. -/
def xor (a b : Int) : Int :=
  (BitVec.ofInt 128 a ^^^ BitVec.ofInt 128 b).toInt

/-- Bitwise complement of the two's complement word. -/
def not (a : Int) : Int := -a - 1

end RangeFlow.Wide
