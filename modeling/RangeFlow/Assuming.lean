/-! # Conclusions under the overflow assumption

Some conclusions hold only because overflow of a signed type is undefined. `Assuming` carries a
conclusion together with the record of whether this assumption was used on the way to it.
-/

namespace RangeFlow

/-- A conclusion, and whether it rests on overflow being undefined. -/
structure Assuming (α : Type) where
  value : α
  overflow : Bool
  deriving Repr, DecidableEq

namespace Assuming

/-- A conclusion that rests on overflow being undefined. -/
def noOverflow {α : Type} (value : α) : Assuming α := ⟨value, true⟩

/-- Steps of a conclusion add up what they assume. -/
instance : Monad Assuming where
  pure a := ⟨a, false⟩
  bind a f := ⟨(f a.value).value, a.overflow || (f a.value).overflow⟩

/-- Both conclusions hold; the second is drawn only if the first holds. -/
def both (a b : Assuming Bool) : Assuming Bool :=
  if a.value then ⟨b.value, a.overflow || b.overflow⟩ else a

/-- One of the conclusions holds; the second is drawn only if the first fails. -/
def either (a b : Assuming Bool) : Assuming Bool :=
  if a.value then a else ⟨b.value, a.overflow || b.overflow⟩

end Assuming

end RangeFlow
