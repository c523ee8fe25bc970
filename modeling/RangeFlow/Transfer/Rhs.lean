import RangeFlow.Program.Statement
import RangeFlow.Transfer.Condition
import RangeFlow.Transfer.Refine
import RangeFlow.Transfer.Unary

/-! # Ranges of right-hand sides

`Query.rhsResult` gives a range for the value of a right-hand side from what is known about names.
-/

namespace RangeFlow.Query

/-- A copy has the range of its source and equals it. A source that may hold any value is still
    equal to itself. -/
def copyResult (query : Query) (ty : ScalarType) : Operand → ValueRange
  | .const c => .singleton c
  | .name source =>
      let known := query.rangeOf source
      if !ty.isTracked then .varying
      else if known.isUndefined then known
      else
        let base := if known.isVarying then .sameAs source else known
        base.addEquivalence source known.equiv

/-- A range for a binary operator. If a division may trap, nothing is concluded from a divisor
    that may be zero. -/
def binaryResult (query : Query) (op : BinaryOp) (lhs rhs : Operand) (ty : ScalarType)
    (divisionTraps : Bool) : ValueRange :=
  let divisor := query.operandRange rhs
  if divisionTraps && op.isDivision && !divisor.rangeExcludesZero ty then .varying
  else .binary op ty (query.operandRange lhs) divisor

/-- A range for a choice: one side if the condition is decided, else both. -/
def selectResult (query : Query) (cond : Condition) (thenValue elseValue : Operand)
    (ty : ScalarType) : ValueRange :=
  match (query.decideCondition cond.op cond.lhs cond.rhs false).value with
  | some true => query.operandRange thenValue
  | some false => query.operandRange elseValue
  | none => .meet ty (query.operandRange thenValue) (query.operandRange elseValue)

/-- A range for the value of a right-hand side that is assigned to a name of the given type. -/
def rhsResult (query : Query) (ty : ScalarType) (rhs : Rhs) (divisionTraps : Bool) : ValueRange :=
  match rhs with
  | .copy source => query.copyResult ty source
  | .unary op operand =>
      .unary op (query.operandType ty operand) ty (query.operandRange operand)
  | .binary op a b => query.binaryResult op a b ty divisionTraps
  | .compare op a b => query.compareResult op a b ty
  | .select cond thenValue elseValue => query.selectResult cond thenValue elseValue ty
  | .assert subject predicate => query.assertResult subject predicate ty
  | .addressOf => .nonnull
  | .call _ nonnull => if nonnull && ty.isPointer then .nonnull else .varying
  | .load _ => .varying

end RangeFlow.Query
