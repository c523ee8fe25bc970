import RangeFlow.Range

/-! # Bits of a range

Which bits may be set, and which must be set, in the values of an interval. Values are read as
two's complement words of the type's precision.
-/

namespace RangeFlow

/-- The word with every bit of the type set. -/
def ScalarType.mask (ty : ScalarType) : Nat := twoPow ty.precision - 1

/-- The two's complement word of a number, cut to the type's precision. -/
def ScalarType.toBits (ty : ScalarType) (value : Int) : Nat := (value % ty.size).toNat

/-- The value of the type whose word is given. -/
def ScalarType.ofBits (ty : ScalarType) (bits : Nat) : Int := ty.wrap bits

/-- What is known about the bits of the values of a range. -/
structure KnownBits where
  /-- Bits that are set in some value. -/
  may : Nat
  /-- Bits that are set in every value. -/
  must : Nat
  /-- Does this come from constant ends? -/
  known : Bool
  deriving Repr, DecidableEq

/-- The bits at and below the highest bit of a number. -/
def lowMask (bits : Nat) : Nat := if bits = 0 then 0 else twoPow (Nat.log2 bits + 1) - 1

/-- The known bits of the interval between two values. Where the words of the ends differ, the
    values between them run through both settings of the highest differing bit, and so through all
    settings of the bits below it. -/
def KnownBits.between (ty : ScalarType) (lo hi : Int) : KnownBits :=
  let low := ty.toBits lo
  let high := ty.toBits hi
  if 0 ≤ lo ∨ hi < 0 then
    let free := lowMask (low ^^^ high)
    ⟨(low ||| high) ||| free, (low &&& high) &&& (ty.mask ^^^ free), true⟩
  else
    ⟨ty.mask, 0, true⟩

/-- The known bits of a range. -/
def ValueRange.knownBits (ty : ScalarType) (vr : ValueRange) : KnownBits :=
  if vr.isRange && !vr.usesInfinity then
    match vr.constBounds? ty with
    | some (lo, hi) => .between ty lo hi
    | none => ⟨ty.mask, 0, false⟩
  else ⟨ty.mask, 0, false⟩

end RangeFlow
