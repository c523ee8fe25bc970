import RangeFlow.Operand

/-! # Statements

What the blocks of a function are made of: assignments and stores, merges at block heads, and the
terminators that choose the next block.
-/

namespace RangeFlow

/-- The right-hand side of an assignment. -/
inductive Rhs where
  | copy (source : Operand)
  | unary (op : UnaryOp) (operand : Operand)
  | binary (op : BinaryOp) (lhs rhs : Operand)
  /-- The truth value of a comparison. -/
  | compare (op : CmpOp) (lhs rhs : Operand)
  /-- One of two values, chosen by a condition. -/
  | select (cond : Condition) (thenValue elseValue : Operand)
  /-- The value of a name that is known to satisfy a predicate here. -/
  | assert (subject : NameId) (predicate : Predicate)
  /-- The address of a local variable. -/
  | addressOf
  | load (address : Operand)
  | call (args : List Operand) (nonnull : Bool)
  deriving Repr, DecidableEq

namespace Rhs

/-- The operands, in order. The subject of an assertion is not among them. -/
def operands : Rhs → List Operand
  | copy x => [x]
  | unary _ x => [x]
  | binary _ a b => [a, b]
  | compare _ a b => [a, b]
  | select cond thenValue elseValue => [cond.lhs, cond.rhs, thenValue, elseValue]
  | assert _ (.compare _ limit) => [limit]
  | assert _ (.within _ _ _) => []
  | addressOf => []
  | load address => [address]
  | call args _ => args

/-- The names read, in order, the subject of an assertion first. -/
def usedNames (rhs : Rhs) : List NameId :=
  match rhs with
  | assert subject _ => subject :: rhs.operands.filterMap Operand.name?
  | _ => rhs.operands.filterMap Operand.name?

/-- The right-hand side with other names in place of those it reads. -/
def rename (f : NameId → NameId) : Rhs → Rhs
  | copy x => copy (x.rename f)
  | unary op x => unary op (x.rename f)
  | binary op a b => binary op (a.rename f) (b.rename f)
  | compare op a b => compare op (a.rename f) (b.rename f)
  | select cond thenValue elseValue =>
      select (cond.rename f) (thenValue.rename f) (elseValue.rename f)
  | assert subject predicate => assert (f subject) (predicate.rename f)
  | addressOf => addressOf
  | load address => load (address.rename f)
  | call args nonnull => call (args.map (Operand.rename f)) nonnull

/-- The written form of the right-hand side. -/
protected def toString : Rhs → String
  | copy x => toString x
  | unary op x => toString op ++ " " ++ toString x
  | binary op a b => toString a ++ " " ++ toString op ++ " " ++ toString b
  | compare op a b => toString a ++ " " ++ toString op ++ " " ++ toString b
  | select cond thenValue elseValue =>
      toString cond ++ " ? " ++ toString thenValue ++ " : " ++ toString elseValue
  | assert subject predicate =>
      "ASSERT_EXPR <" ++ nameText subject ++ ", " ++ nameText subject ++ " " ++
        toString predicate ++ ">"
  | addressOf => "&local"
  | load address => "*" ++ toString address
  | call args nonnull =>
      "call(" ++ ", ".intercalate (args.map toString) ++ ")" ++
        (if nonnull then " [nonnull]" else "")

instance : ToString Rhs := ⟨Rhs.toString⟩

end Rhs

/-- One step of a block. -/
inductive Stmt where
  | assign (dest : NameId) (rhs : Rhs)
  | store (address value : Operand)
  | nop
  deriving Repr, DecidableEq

namespace Stmt

/-- The name assigned, if any. -/
def dest? : Stmt → Option NameId
  | assign dest _ => some dest
  | store _ _ => none
  | nop => none

/-- The right-hand side, if the statement assigns. -/
def rhs? : Stmt → Option Rhs
  | assign _ rhs => some rhs
  | store _ _ => none
  | nop => none

/-- Is the statement an assertion? -/
def isAssert : Stmt → Bool
  | assign _ (.assert _ _) => true
  | _ => false

/-- The name that the statement reads or writes through. -/
def dereferenced? : Stmt → Option NameId
  | store address _ => address.name?
  | assign _ (.load address) => address.name?
  | _ => none

/-- The names the statement reads, in order. -/
def usedNames : Stmt → List NameId
  | assign _ rhs => rhs.usedNames
  | store address value => [address, value].filterMap Operand.name?
  | nop => []

/-- The statement with other names in place of those it reads. -/
def rename (f : NameId → NameId) : Stmt → Stmt
  | assign dest rhs => assign dest (rhs.rename f)
  | store address value => store (address.rename f) (value.rename f)
  | nop => nop

/-- The written form of the statement. -/
protected def toString : Stmt → String
  | assign dest rhs => nameText dest ++ " = " ++ toString rhs
  | store address value => "*" ++ toString address ++ " = " ++ toString value
  | nop => "nop"

instance : ToString Stmt := ⟨Stmt.toString⟩

end Stmt

/-- A block selected by the index values from `low` to `high`. -/
structure SwitchCase where
  low : Int
  high : Int
  target : BlockId
  deriving Repr, DecidableEq

/-- Does the case select the value? -/
def SwitchCase.matches (case : SwitchCase) (value : Int) : Bool :=
  decide (case.low ≤ value) && decide (value ≤ case.high)

/-- How a block ends. -/
inductive Terminator where
  | jump (target : BlockId)
  | branch (cond : Condition) (onTrue onFalse : BlockId)
  | switch (index : Operand) (cases : List SwitchCase) (default : BlockId)
  | return (value : Option Operand)
  | unreachable
  deriving Repr, DecidableEq

namespace Terminator

/-- The blocks that may follow, in order and with repetitions. -/
def targets : Terminator → List BlockId
  | jump target => [target]
  | branch _ onTrue onFalse => [onTrue, onFalse]
  | switch _ cases default => cases.map SwitchCase.target ++ [default]
  | .return _ => []
  | unreachable => []

/-- The operands read, in order. -/
def operands : Terminator → List Operand
  | jump _ => []
  | branch cond _ _ => [cond.lhs, cond.rhs]
  | switch index _ _ => [index]
  | .return value => value.toList
  | unreachable => []

/-- The names read, in order. -/
def usedNames (t : Terminator) : List NameId := t.operands.filterMap Operand.name?

/-- The terminator with other names in place of those it reads. -/
def rename (f : NameId → NameId) : Terminator → Terminator
  | jump target => jump target
  | branch cond onTrue onFalse => branch (cond.rename f) onTrue onFalse
  | switch index cases default => switch (index.rename f) cases default
  | .return value => .return (value.map (Operand.rename f))
  | unreachable => unreachable

/-- The terminator with other blocks in place of its targets. -/
def retarget (f : BlockId → BlockId) : Terminator → Terminator
  | jump target => jump (f target)
  | branch cond onTrue onFalse => branch cond (f onTrue) (f onFalse)
  | switch index cases default =>
      switch index (cases.map fun case => { case with target := f case.target }) (f default)
  | .return value => .return value
  | unreachable => unreachable

/-- The written form of a switch case. -/
def caseText (case : SwitchCase) : String :=
  let label :=
    if case.low = case.high then toString case.low
    else toString case.low ++ " ... " ++ toString case.high
  "case " ++ label ++ ": " ++ blockText case.target ++ "; "

/-- The written form of the terminator. -/
protected def toString : Terminator → String
  | jump target => "goto " ++ blockText target
  | branch cond onTrue onFalse =>
      "if (" ++ toString cond ++ ") goto " ++ blockText onTrue ++ " else goto " ++
        blockText onFalse
  | switch index cases default =>
      "switch (" ++ toString index ++ ") \x7b " ++ String.join (cases.map caseText) ++
        "default: " ++ blockText default ++ " \x7d"
  | .return (some value) => "return " ++ toString value
  | .return none => "return"
  | unreachable => "unreachable"

instance : ToString Terminator := ⟨Terminator.toString⟩

end Terminator

/-- The value a merge takes when control comes from a predecessor. -/
structure PhiOperand where
  predecessor : BlockId
  value : Operand
  deriving Repr, DecidableEq

/-- A merge at the head of a block: the value depends on the edge that was taken. -/
structure Phi where
  dest : NameId
  operands : List PhiOperand
  deriving Repr, DecidableEq

namespace Phi

/-- The value that comes from a predecessor. -/
def operandFrom? (phi : Phi) (predecessor : BlockId) : Option Operand :=
  (phi.operands.find? (·.predecessor == predecessor)).map PhiOperand.value

/-- The written form of the merge. -/
protected def toString (phi : Phi) : String :=
  let operands := phi.operands.map fun o =>
    toString o.value ++ "(" ++ blockText o.predecessor ++ ")"
  nameText phi.dest ++ " = PHI <" ++ ", ".intercalate operands ++ ">"

instance : ToString Phi := ⟨Phi.toString⟩

end Phi

/-- A block: merges, then statements, then a terminator. -/
structure Block where
  phis : List Phi
  stmts : List Stmt
  terminator : Terminator
  /-- Where control goes if a statement of the block raises an exception. -/
  abnormal : List BlockId
  /-- Was the block put on an edge to hold an assertion? -/
  split : Bool
  deriving Repr, DecidableEq

/-- A block without merges and statements. -/
def Block.ofTerminator (terminator : Terminator) : Block := ⟨[], [], terminator, [], false⟩

instance : Inhabited Block := ⟨.ofTerminator .unreachable⟩

end RangeFlow
