/-! # Powers of two -/

namespace RangeFlow

/-- Two to the power of `n`. -/
def twoPow (n : Nat) : Nat := Nat.pow 2 n

/-- A power of two is positive. -/
theorem twoPow_pos (n : Nat) : 0 < twoPow n := Nat.two_pow_pos n

/-- The next power of two is twice as large. -/
theorem twoPow_succ (n : Nat) : twoPow (n + 1) = twoPow n * 2 := rfl

end RangeFlow
