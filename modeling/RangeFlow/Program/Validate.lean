import RangeFlow.Error
import RangeFlow.Program.Function

/-! # Well-formed functions

`Function.validate` refuses functions whose blocks, names, merges or types do not fit together, and
names the first fault.
-/

namespace RangeFlow.Function

/-- Every target of every block exists. -/
def checkTargets (f : Function) : Except Error Unit :=
  f.blocks.forM fun block =>
    (block.terminator.targets ++ block.abnormal).forM fun target =>
      if target < f.blockCount then .ok () else .error (.unknownBlock target)

/-- The names with a value before the entry block. -/
def defaultNames (f : Function) : List NameId :=
  f.names.zipIdx.filterMap fun (info, n) => if info.origin.isDefault then some n else none

/-- Add a name to the defined ones; it must exist and have no other definition. -/
def defineName (f : Function) (defined : List NameId) (name : NameId) :
    Except Error (List NameId) :=
  if f.nameCount ≤ name then .error (.unknownName name)
  else if defined.contains name then .error (.definedTwice name)
  else .ok (name :: defined)

/-- All defined names. Each of them exists and has one definition. -/
def checkDefinitions (f : Function) : Except Error (List NameId) :=
  (f.blocks.flatMap Block.defs).foldlM f.defineName f.defaultNames

/-- Every name that is read is defined. -/
def checkUses (f : Function) (defined : List NameId) : Except Error Unit :=
  (List.range f.nameCount).forM fun n =>
    if (f.uses n).isEmpty || defined.contains n then .ok () else .error (.neverDefined n)

/-- An operand that is a name exists. -/
def checkName (f : Function) : Operand → Except Error Unit
  | .name n => if n < f.nameCount then .ok () else .error (.unknownName n)
  | .const _ => .ok ()

/-- An operand is a name of the given type or a literal that is a value of it. -/
def checkOperand (f : Function) (expected : ScalarType) (operand : Operand) :
    Except Error Unit := do
  f.checkName operand
  match operand with
  | .name n =>
      if f.typeOf n = expected then .ok () else .error (.typeMismatch n expected (f.typeOf n))
  | .const c =>
      if expected.isTracked && !expected.fits c then .error (.literalMisfit c expected) else .ok ()

/-- The two sides of a comparison have one type. -/
def checkComparison (f : Function) (lhs rhs : Operand) : Except Error Unit := do
  f.checkName lhs
  f.checkName rhs
  match f.comparisonType? lhs rhs with
  | some ty =>
      f.checkOperand ty lhs
      f.checkOperand ty rhs
  | none => .ok ()

/-- The type of a name that exists. -/
def checkedType (f : Function) (name : NameId) : Except Error ScalarType :=
  match f.typeOf? name with
  | some ty => .ok ty
  | none => .error (.unknownName name)

/-- A merge has one operand of its type from each predecessor. -/
def checkPhi (f : Function) (id : BlockId) (phi : Phi) : Except Error Unit := do
  let preds := f.predecessors id
  let ty ← f.checkedType phi.dest
  if phi.operands.length ≠ preds.length then
    .error (.phiArity phi.dest id phi.operands.length preds.length)
  phi.operands.forM fun operand => do
    if f.blockCount ≤ operand.predecessor then
      .error (.unknownBlock operand.predecessor)
    if !preds.contains operand.predecessor then
      .error (.phiStranger phi.dest id operand.predecessor)
    f.checkOperand ty operand.value
  preds.forM fun pred =>
    if (phi.operandFrom? pred).isSome then .ok () else .error (.phiLacks phi.dest id pred)

/-- The operands of a right-hand side have the types it asks for. -/
def checkRhs (f : Function) (ty : ScalarType) (rhs : Rhs) : Except Error Unit := do
  rhs.operands.forM f.checkName
  match rhs with
  | .copy x => f.checkOperand ty x
  | .binary op a b =>
      f.checkOperand ty a
      if op.isAsymmetric then .ok () else f.checkOperand ty b
  | .compare _ a b => f.checkComparison a b
  | .select cond thenValue elseValue =>
      f.checkComparison cond.lhs cond.rhs
      f.checkOperand ty thenValue
      f.checkOperand ty elseValue
  | .assert subject _ => f.checkOperand ty (.name subject)
  | .unary _ _ | .addressOf | .load _ | .call _ _ => .ok ()

/-- The operands of a statement have the types it asks for. -/
def checkStmt (f : Function) : Stmt → Except Error Unit
  | .assign dest rhs => do f.checkRhs (← f.checkedType dest) rhs
  | .store address value => do
      f.checkName address
      f.checkName value
  | .nop => .ok ()

/-- Cases are not empty, stand in ascending order without overlap, and fit the index. -/
def checkCases (ty : Option ScalarType) : Option Int → List SwitchCase → Except Error Unit
  | _, [] => .ok ()
  | previous, case :: rest => do
      if case.high < case.low then
        .error (.emptyCase case.low case.high)
      if previous.any fun p => decide (case.low ≤ p) then
        .error (.unsortedCase case.low)
      match ty with
      | some ty =>
          if ty.fits case.low && ty.fits case.high then .ok ()
          else .error (.caseMisfit case.low case.high ty)
      | none => .ok ()
      checkCases ty (some case.high) rest

/-- The operands of a terminator have the types it asks for. -/
def checkTerminator (f : Function) : Terminator → Except Error Unit
  | .branch cond _ _ => f.checkComparison cond.lhs cond.rhs
  | .switch index cases _ => do
      f.checkName index
      checkCases (index.name?.map f.typeOf) none cases
  | .return (some value) => f.checkName value
  | .return none => .ok ()
  | .jump _ => .ok ()
  | .unreachable => .ok ()

/-- A block's merges, statements and terminator fit the function. -/
def checkBlock (f : Function) (id : BlockId) (block : Block) : Except Error Unit := do
  block.phis.forM (f.checkPhi id)
  block.stmts.forM f.checkStmt
  f.checkTerminator block.terminator

/-- Refuse a function that is not well formed. -/
def validate (f : Function) : Except Error Unit := do
  if f.blocks.isEmpty then
    .error (.noBlocks f.name)
  f.checkTargets
  f.checkUses (← f.checkDefinitions)
  f.blocks.zipIdx.forM fun (block, id) => f.checkBlock id block

end RangeFlow.Function
