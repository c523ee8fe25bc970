import RangeFlow.Scalar
import RangeFlow.Wide

/-! # Operators

Unary and binary operators and comparisons, with their value on constants. `applyExact` computes
over the integers, as far as a wide word reaches; `fold` brings the result into the type.
-/

namespace RangeFlow

/-- Operators of one operand. -/
inductive UnaryOp where
  /-- Conversion to another type. -/
  | convert
  /-- Opposite. -/
  | negate
  /-- Bitwise complement. -/
  | bitNot
  /-- Magnitude. -/
  | abs
  /-- One for zero, zero for all else. -/
  | truthNot
  /-- Floating point value to integer. -/
  | floatToInt
  /-- Integer to floating point value. -/
  | intToFloat
  deriving Repr, DecidableEq

/-- Operators of two operands. -/
inductive BinaryOp where
  | add
  | sub
  | mul
  /-- Quotient rounded towards zero. -/
  | truncDiv
  /-- Quotient rounded down. -/
  | floorDiv
  /-- Quotient rounded up. -/
  | ceilDiv
  /-- Quotient rounded to nearest, a half away from zero. -/
  | roundDiv
  /-- Quotient that is known to leave no remainder. -/
  | exactDiv
  /-- Remainder of the quotient rounded towards zero. -/
  | truncMod
  | shl
  | shr
  | min
  | max
  | bitAnd
  | bitOr
  | bitXor
  /-- Address plus offset. -/
  | pointerPlus
  deriving Repr, DecidableEq

/-- Comparisons. -/
inductive CmpOp where
  | lt
  | le
  | gt
  | ge
  | eq
  | ne
  deriving Repr, DecidableEq

namespace UnaryOp

/-- All operators of one operand. -/
def all : List UnaryOp :=
  [convert, negate, bitNot, abs, truthNot, floatToInt, intToFloat]

/-- The written form of the operator. -/
def symbol : UnaryOp → String
  | convert => "(convert)"
  | negate => "-"
  | bitNot => "~"
  | abs => "abs"
  | truthNot => "!"
  | floatToInt => "(fix_trunc)"
  | intToFloat => "(float)"

instance : ToString UnaryOp := ⟨symbol⟩

/-- The operator's value over the integers. There is none outside a wide word, and floating point
    operators have none. -/
def applyExact : UnaryOp → Int → Option Int
  | convert, x => some x
  | negate, x => Wide.neg? x
  | bitNot, x => some (Wide.not x)
  | abs, x => Wide.abs? x
  | truthNot, x => some (if x = 0 then 1 else 0)
  | floatToInt, _ => none
  | intToFloat, _ => none

/-- The operator's value on a constant. A conversion always wraps; any other result outside the
    target type wraps if the source type does, and is undefined if not. -/
def fold (op : UnaryOp) (x : Int) (source target : ScalarType) : Option Int :=
  if op == convert then some (target.wrap x)
  else (op.applyExact x).bind fun exact =>
    if target.fits exact then some exact
    else if source.wraps then some (target.wrap exact)
    else none

end UnaryOp

namespace BinaryOp

/-- All operators of two operands. -/
def all : List BinaryOp :=
  [add, sub, mul, truncDiv, floorDiv, ceilDiv, roundDiv, exactDiv, truncMod, shl, shr, min, max,
    bitAnd, bitOr, bitXor, pointerPlus]

/-- The written form of the operator. -/
def symbol : BinaryOp → String
  | add => "+"
  | sub => "-"
  | mul => "*"
  | truncDiv => "/"
  | floorDiv => "/[fl]"
  | ceilDiv => "/[cl]"
  | roundDiv => "/[rd]"
  | exactDiv => "/[ex]"
  | truncMod => "%"
  | shl => "<<"
  | shr => ">>"
  | min => "min"
  | max => "max"
  | bitAnd => "&"
  | bitOr => "|"
  | bitXor => "^"
  | pointerPlus => "p+"

instance : ToString BinaryOp := ⟨symbol⟩

/-- Is the operator a quotient? -/
def isDivision : BinaryOp → Bool
  | truncDiv | floorDiv | ceilDiv | roundDiv | exactDiv => true
  | _ => false

/-- Does the right operand have a type of its own? -/
def isAsymmetric : BinaryOp → Bool
  | shl | shr | pointerPlus => true
  | _ => false

/-- The shift amount a number stands for: from zero to below the precision of the type. -/
def shiftAmount (amount : Int) (ty : ScalarType) : Option Nat :=
  if 0 ≤ amount ∧ amount < ty.precision then some amount.toNat else none

/-- Quotient rounded to nearest, a half away from zero. Twice the remainder has to fit a wide
    word, and so has the magnitude of the divisor. -/
def roundedQuotient? (a b : Int) : Option Int := do
  let q ← Wide.div? a b
  let r ← Wide.rem? a b
  let twice ← Wide.mul? (← Wide.abs? r) 2
  let divisor ← Wide.abs? b
  return if twice < divisor then q else if a.sign = b.sign then q + 1 else q - 1

/-- The operator's value over the integers. There is none outside a wide word, for a divisor of
    zero, and for a shift amount that is negative or not below the precision. -/
def applyExact (op : BinaryOp) (a b : Int) (ty : ScalarType) : Option Int :=
  match op with
  | add | pointerPlus => Wide.add? a b
  | sub => Wide.sub? a b
  | mul => Wide.mul? a b
  | truncDiv | exactDiv => Wide.div? a b
  | floorDiv => (Wide.div? a b).map fun _ => a.fdiv b
  | ceilDiv => (Wide.div? a b).map fun _ => -(-a).fdiv b
  | roundDiv => roundedQuotient? a b
  | truncMod => Wide.rem? a b
  | shl => (shiftAmount b ty).bind fun n => Wide.mul? a (twoPow n)
  | shr => (shiftAmount b ty).map fun (n : Nat) => a >>> n
  | min => some (Min.min a b)
  | max => some (Max.max a b)
  | bitAnd => some (Wide.and a b)
  | bitOr => some (Wide.or a b)
  | bitXor => some (Wide.xor a b)

/-- The operator's value on constants. A result outside the type wraps if the type does, or if it
    comes from a left shift, and is undefined if not. -/
def fold (op : BinaryOp) (a b : Int) (ty : ScalarType) : Option Int :=
  (op.applyExact a b ty).bind fun exact =>
    if ty.fits exact then some exact
    else if ty.wraps || op == shl then some (ty.wrap exact)
    else none

end BinaryOp

namespace CmpOp

/-- All comparisons. -/
def all : List CmpOp := [lt, le, gt, ge, eq, ne]

/-- The written form of the comparison. -/
def symbol : CmpOp → String
  | lt => "<"
  | le => "<="
  | gt => ">"
  | ge => ">="
  | eq => "=="
  | ne => "!="

instance : ToString CmpOp := ⟨symbol⟩

/-- The comparison that says the same with its operands exchanged. -/
def swap : CmpOp → CmpOp
  | lt => gt
  | le => ge
  | gt => lt
  | ge => le
  | eq => eq
  | ne => ne

/-- The comparison that holds exactly when this one fails. -/
def invert : CmpOp → CmpOp
  | lt => ge
  | le => gt
  | gt => le
  | ge => lt
  | eq => ne
  | ne => eq

/-- Is this equality or its negation? -/
def isEquality : CmpOp → Bool
  | eq | ne => true
  | _ => false

/-- Does the comparison hold of two numbers? -/
def eval : CmpOp → Int → Int → Bool
  | lt, a, b => decide (a < b)
  | le, a, b => decide (a ≤ b)
  | gt, a, b => decide (b < a)
  | ge, a, b => decide (b ≤ a)
  | eq, a, b => decide (a = b)
  | ne, a, b => decide (a ≠ b)

/-- Exchanging the comparison and its operands changes nothing. -/
theorem eval_swap (op : CmpOp) (a b : Int) : op.swap.eval b a = op.eval a b := by
  cases op <;> simp [swap, eval, eq_comm]

/-- The inverted comparison is the negation. -/
theorem eval_invert (op : CmpOp) (a b : Int) : op.invert.eval a b = !op.eval a b := by
  cases op <;> simp only [invert, eval, ← decide_not, decide_eq_decide] <;> omega

end CmpOp

end RangeFlow
