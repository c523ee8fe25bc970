import RangeFlow.Power

/-! # Scalar types

The types of names: integers of 1 to 64 bits, truth values, pointers, and floating point values,
which the analysis does not follow.
-/

namespace RangeFlow

/-- The family a scalar type belongs to. -/
inductive TypeKind where
  | integer
  | boolean
  | pointer
  | float
  deriving Repr, DecidableEq

/-- How an integer type reads its top bit, and what a result outside its values becomes. -/
inductive Signedness where
  /-- Values from zero; results are taken modulo a power of two. -/
  | unsigned
  /-- Two's complement values; a result outside them is undefined. -/
  | signed
  /-- Two's complement values; results are taken modulo a power of two. -/
  | signedWrapping
  deriving Repr, DecidableEq

/-- The number of bits of an integer type. -/
abbrev Precision := { bits : Nat // 0 < bits ∧ bits ≤ 64 }

/-- The type of a name. -/
inductive ScalarType where
  /-- Integers of the given number of bits. -/
  | int (bits : Precision) (sign : Signedness)
  /-- Truth values, stored as zero and one. -/
  | bool
  /-- Addresses; zero is the null pointer. -/
  | ptr
  /-- Floating point values. The flag records only that wrapping was asked for. -/
  | float (wrapping : Bool)
  deriving Repr, DecidableEq

namespace ScalarType

/-- The integer type of the given precision, if there is one. -/
def int? (bits : Nat) (signed : Bool) : Option ScalarType :=
  if h : 0 < bits ∧ bits ≤ 64 then
    some (.int ⟨bits, h⟩ (if signed then .signed else .unsigned))
  else
    none

/-- Signed integers of 32 bits, the type of an expression without names. -/
def i32 : ScalarType := .int ⟨32, by decide⟩ .signed

/-- The same type, with results taken modulo a power of two. -/
def wrapping : ScalarType → ScalarType
  | int bits .signed => int bits .signedWrapping
  | float _ => float true
  | ty => ty

/-- The family of the type. -/
def kind : ScalarType → TypeKind
  | int _ _ => .integer
  | bool => .boolean
  | ptr => .pointer
  | float _ => .float

/-- Number of bits of a value. -/
def precision : ScalarType → Nat
  | int bits _ => bits.val
  | bool => 1
  | ptr => 64
  | float _ => 64

/-- Does the type have negative values? -/
def signed : ScalarType → Bool
  | int _ .unsigned => false
  | int _ _ => true
  | bool => false
  | ptr => false
  | float _ => true

/-- Are results taken modulo a power of two? -/
def wraps : ScalarType → Bool
  | int _ .signed => false
  | int _ _ => true
  | bool => true
  | ptr => true
  | float wrapping => wrapping

/-- Is this the type of addresses? -/
def isPointer (ty : ScalarType) : Bool := ty.kind == .pointer

/-- Is this an integer type or the type of truth values? -/
def isIntegral (ty : ScalarType) : Bool :=
  ty.kind == .integer || ty.kind == .boolean

/-- Does the analysis follow values of this type? -/
def isTracked (ty : ScalarType) : Bool := ty.kind != .float

/-- Is a result outside the type undefined? -/
def overflowUndefined (ty : ScalarType) : Bool :=
  ty.isIntegral && ty.signed && !ty.wraps

/-- Number of values of the type: two to the power of its precision. -/
def size (ty : ScalarType) : Int := twoPow ty.precision

/-- The least value of the type. -/
def minValue (ty : ScalarType) : Int :=
  if ty.signed then -(twoPow (ty.precision - 1) : Int) else 0

/-- The greatest value of the type. -/
def maxValue (ty : ScalarType) : Int :=
  if ty.signed then (twoPow (ty.precision - 1) : Int) - 1 else (twoPow ty.precision : Int) - 1

/-- Is the number a value of the type? -/
def fits (ty : ScalarType) (value : Int) : Bool :=
  decide (ty.minValue ≤ value) && decide (value ≤ ty.maxValue)

/-- The value of the type that differs from the number by a multiple of the type's size. -/
def wrap (ty : ScalarType) (value : Int) : Int :=
  let low := value % ty.size
  if ty.signed && decide (ty.maxValue < low) then low - ty.size else low

/-- The written form of the type. -/
protected def toString : ScalarType → String
  | int bits .unsigned => "u" ++ toString bits.val
  | int bits .signed => "i" ++ toString bits.val
  | int bits .signedWrapping => "i" ++ toString bits.val ++ "(wrapv)"
  | bool => "bool"
  | ptr => "ptr"
  | float _ => "float"

instance : ToString ScalarType := ⟨ScalarType.toString⟩

/-- A type has at least one bit. -/
theorem precision_pos (ty : ScalarType) : 0 < ty.precision := by
  cases ty with
  | int bits _ => exact bits.property.1
  | bool | ptr | float _ => simp [precision]

/-- A type has at most 64 bits. -/
theorem precision_le (ty : ScalarType) : ty.precision ≤ 64 := by
  cases ty with
  | int bits _ => exact bits.property.2
  | bool | ptr | float _ => simp [precision]

end ScalarType

end RangeFlow
