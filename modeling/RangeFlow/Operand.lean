import RangeFlow.Ident
import RangeFlow.Operator

/-! # Operands, conditions and predicates -/

namespace RangeFlow

/-- What an operator reads: a name or a literal. -/
inductive Operand where
  | name (name : NameId)
  | const (value : Int)
  deriving Repr, DecidableEq

namespace Operand

/-- The name, if the operand is one. -/
def name? : Operand → Option NameId
  | name n => some n
  | const _ => none

/-- The operand with another name in place of its name. -/
def rename (f : NameId → NameId) : Operand → Operand
  | name n => name (f n)
  | const c => const c

/-- The written form of the operand. -/
protected def toString : Operand → String
  | name n => nameText n
  | const c => toString c

instance : ToString Operand := ⟨Operand.toString⟩

end Operand

/-- A comparison of two operands. -/
structure Condition where
  op : CmpOp
  lhs : Operand
  rhs : Operand
  deriving Repr, DecidableEq

namespace Condition

/-- The condition that holds exactly when this one fails. -/
def inverted (cond : Condition) : Condition := { cond with op := cond.op.invert }

/-- The condition with other names in place of those it reads. -/
def rename (f : NameId → NameId) (cond : Condition) : Condition :=
  { cond with lhs := cond.lhs.rename f, rhs := cond.rhs.rename f }

instance : ToString Condition :=
  ⟨fun cond => toString cond.lhs ++ " " ++ toString cond.op ++ " " ++ toString cond.rhs⟩

end Condition

/-- A fact about one value. -/
inductive Predicate where
  /-- The value compares to the limit. -/
  | compare (op : CmpOp) (limit : Operand)
  /-- The value lies, or with `negated` does not lie, in the interval from `low` up to `high`,
      which passes through the ends of the type if `high < low`. -/
  | within (low high : Int) (negated : Bool)
  deriving Repr, DecidableEq

namespace Predicate

/-- The predicate with another name in place of its limit. -/
def rename (f : NameId → NameId) : Predicate → Predicate
  | compare op limit => compare op (limit.rename f)
  | within low high negated => within low high negated

/-- The written form of the predicate. -/
protected def toString : Predicate → String
  | compare op limit => toString op ++ " " ++ toString limit
  | within low high negated =>
      (if negated then "not in [" else "in [") ++ toString low ++ ", " ++ toString high ++ "]"

instance : ToString Predicate := ⟨Predicate.toString⟩

end Predicate

end RangeFlow
