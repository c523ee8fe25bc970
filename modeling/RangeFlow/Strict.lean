import RangeFlow.Operator

/-! # Strict words

Sums, differences and shifts of values are expected to stay within the words of 128 bits in which
they are computed. A strict computation takes this expectation at its word: an operation whose exact
result leaves its word is a fault, and ends the computation. The operations of `Wide` are different:
that they may have no result is part of the rules.
-/

namespace RangeFlow

/-- Why a strict computation ends without a result. -/
inductive Fault where
  /-- The number is no signed word. -/
  | signed (number : Int)
  /-- The number is no unsigned word. -/
  | unsigned (number : Int)
  /-- The shift is not by less than the width of a word. -/
  | shift (amount : Int)
  /-- There is no remainder by the divisor. -/
  | remainder (divisor : Int)
  deriving Repr, DecidableEq

/-- A computation that ends with a fault where an operation leaves its word. -/
abbrev Strict (α : Type) := Except Fault α

namespace Strict

/-- The number itself, if it is a signed word. -/
def signed (x : Int) : Strict Int :=
  if Wide.fits x then .ok x else .error (.signed x)

/-- The number itself, if it is an unsigned word. -/
def unsigned (x : Int) : Strict Nat :=
  if 0 ≤ x ∧ x < twoPow 128 then .ok x.toNat else .error (.unsigned x)

/-- Sum of signed words. -/
def add (a b : Int) : Strict Int := signed (a + b)

/-- Difference of signed words. -/
def sub (a b : Int) : Strict Int := signed (a - b)

/-- Opposite of a signed word. -/
def neg (a : Int) : Strict Int := signed (-a)

/-- Magnitude of a signed word. -/
def abs (a : Int) : Strict Int := signed a.natAbs

/-- The amount of a shift. -/
def amount (n : Int) : Strict Nat :=
  if 0 ≤ n ∧ n < 128 then .ok n.toNat else .error (.shift n)

/-- Left shift of a signed word. No bit may be lost, and none may become the sign. -/
def shl (a n : Int) : Strict Int := do
  signed (a * twoPow (← amount n))

/-- Right shift of a signed word. -/
def shr (a n : Int) : Strict Int := do
  return a >>> (← amount n)

/-- Remainder of a signed word that is not negative. There is none where the quotient leaves the
    word. -/
def rem (a m : Int) : Strict Int :=
  if m = 0 ∨ (a = Wide.least ∧ m = -1) then .error (.remainder m) else .ok (a % m)

/-- Left shift of an unsigned word. No bit may be lost. -/
def shlUnsigned (a : Nat) (n : Int) : Strict Nat := do
  unsigned (a * twoPow (← amount n))

/-- Difference of unsigned words. -/
def subUnsigned (a b : Nat) : Strict Nat := unsigned (a - b)

/-- Bitwise complement of an unsigned word. -/
def complement (bits : Nat) : Nat := (twoPow 128 - 1) ^^^ bits

/-- Number of values of a type. -/
def size (ty : ScalarType) : Strict Int := shl 1 ty.precision

/-- The least value of a type. -/
def minValue (ty : ScalarType) : Strict Int := do
  if ty.signed then neg (← shl 1 (ty.precision - 1)) else return 0

/-- The greatest value of a type. -/
def maxValue (ty : ScalarType) : Strict Int := do
  if ty.signed then sub (← shl 1 (ty.precision - 1)) 1 else sub (← shl 1 ty.precision) 1

/-- The value of a type that differs from the number by a multiple of the type's size. -/
def wrap (ty : ScalarType) (value : Int) : Strict Int := do
  let modulus ← size ty
  let low ← rem value modulus
  let greatest ← maxValue ty
  if ty.signed && decide (greatest < low) then sub low modulus else return low

/-- The word with this many of its lowest bits set. -/
def lowestBits (count : Nat) : Strict Nat := do
  subUnsigned (← shlUnsigned 1 count) 1

/-- The word with every bit of a type set. -/
def mask (ty : ScalarType) : Strict Nat := lowestBits ty.precision

/-- The operator's value over the integers, where it has one. Quotients that are not rounded towards
    zero are corrected by one, and powers of two are shifted ones. -/
def applyExact (op : BinaryOp) (a b : Int) (ty : ScalarType) : Strict (Option Int) :=
  match op with
  | .floorDiv =>
      match Wide.div? a b, Wide.rem? a b with
      | some q, some r =>
          if r ≠ 0 ∧ decide (r < 0) ≠ decide (b < 0) then do return some (← sub q 1)
          else return some q
      | _, _ => return none
  | .ceilDiv =>
      match Wide.div? a b, Wide.rem? a b with
      | some q, some r =>
          if r ≠ 0 ∧ decide (r < 0) = decide (b < 0) then do return some (← add q 1)
          else return some q
      | _, _ => return none
  | .roundDiv =>
      match Wide.div? a b, (Wide.rem? a b).bind Wide.abs? |>.bind (Wide.mul? · 2), Wide.abs? b with
      | some q, some twice, some divisor =>
          if twice < divisor then return some q
          else if decide (a < 0) = decide (b < 0) then do return some (← add q 1)
          else do return some (← sub q 1)
      | _, _, _ => return none
  | .shl =>
      match BinaryOp.shiftAmount b ty with
      | some n => do return Wide.mul? a (← shl 1 n)
      | none => return none
  | .shr =>
      match BinaryOp.shiftAmount b ty with
      | some n => do return some (← shr a n)
      | none => return none
  | _ => return op.applyExact a b ty

end Strict

end RangeFlow
