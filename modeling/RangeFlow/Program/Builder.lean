import RangeFlow.Program.Validate

/-! # Building functions

A function is described by a list of declarations. Names are numbered in the order in which
declarations and instructions make them.
-/

namespace RangeFlow

/-- One entry of a block's description. -/
inductive Instruction where
  /-- A merge that makes a new name. -/
  | phi (ty : ScalarType) (operands : List PhiOperand)
  /-- A merge for a name that was declared before. -/
  | phiInto (dest : NameId) (operands : List PhiOperand)
  /-- An assignment to a name that was declared before. -/
  | assign (dest : NameId) (rhs : Rhs)
  /-- An assignment that makes a new name, of the given type or of the type of its operands. -/
  | new (rhs : Rhs) (ty : Option ScalarType)
  | store (address value : Operand)
  | nop
  /-- One more block to which an exception leads. -/
  | abnormal (target : BlockId)
  /-- The terminator; the last one counts. -/
  | terminate (terminator : Terminator)
  deriving Repr, DecidableEq

/-- One entry of a function's description. -/
inductive Declaration where
  | param (ty : ScalarType)
  /-- A pointer parameter that is never null. -/
  | paramNonnull
  /-- A variable that is never set. -/
  | undef (ty : ScalarType)
  /-- A name that some block defines. -/
  | name (ty : ScalarType)
  /-- A block; the last description of a block counts. -/
  | block (id : BlockId) (code : List Instruction)
  deriving Repr, DecidableEq

/-- A function under construction. -/
structure Builder where
  names : List NameInfo := []
  params : Nat := 0
  blocks : List (BlockId × Block) := []

namespace Builder

/-- Make a new name. -/
def alloc (b : Builder) (ty : ScalarType) (origin : Origin) : Builder × NameId :=
  ({ b with names := b.names ++ [⟨ty, origin⟩] }, b.names.length)

/-- Make a parameter. -/
def param (b : Builder) (ty : ScalarType) (nonnull : Bool) : Builder :=
  { (b.alloc ty (.param b.params nonnull)).1 with params := b.params + 1 }

/-- The type of the first operand that is a name; without one, signed integers of 32 bits. -/
def inferType (b : Builder) (operands : List Operand) : ScalarType :=
  (operands.findSome? fun x => x.name?.bind fun n => (b.names[n]?).map NameInfo.ty).getD .i32

/-- The type of a right-hand side by its operands. -/
def rhsType (b : Builder) : Rhs → ScalarType
  | .binary op lhs rhs => if op.isAsymmetric then b.inferType [lhs] else b.inferType [lhs, rhs]
  | .compare _ _ _ => .bool
  | .select _ thenValue elseValue => b.inferType [thenValue, elseValue]
  | .addressOf => .ptr
  | rhs => b.inferType rhs.operands

/-- Carry out one instruction of a block. -/
def step (b : Builder) (block : Block) : Instruction → Builder × Block
  | .phi ty operands =>
      let (b, dest) := b.alloc ty .defined
      (b, { block with phis := block.phis ++ [⟨dest, operands⟩] })
  | .phiInto dest operands => (b, { block with phis := block.phis ++ [⟨dest, operands⟩] })
  | .assign dest rhs => (b, { block with stmts := block.stmts ++ [.assign dest rhs] })
  | .new rhs ty =>
      let (b, dest) := b.alloc (ty.getD (b.rhsType rhs)) .defined
      (b, { block with stmts := block.stmts ++ [.assign dest rhs] })
  | .store address value => (b, { block with stmts := block.stmts ++ [.store address value] })
  | .nop => (b, { block with stmts := block.stmts ++ [.nop] })
  | .abnormal target => (b, { block with abnormal := block.abnormal ++ [target] })
  | .terminate terminator => (b, { block with terminator })

/-- Carry out one declaration. -/
def declare (b : Builder) : Declaration → Builder
  | .param ty => b.param ty false
  | .paramNonnull => b.param .ptr true
  | .undef ty => (b.alloc ty .uninit).1
  | .name ty => (b.alloc ty .defined).1
  | .block id code =>
      let (b, block) := code.foldl (fun (b, block) i => b.step block i)
        (b, Block.ofTerminator .unreachable)
      { b with blocks := (id, block) :: b.blocks }

/-- The blocks up to the last one that is described. A block without description has no way out. -/
def allBlocks (b : Builder) : List Block :=
  let last := b.blocks.foldl (fun m (id, _) => Nat.max m id) 0
  (List.range (last + 1)).map fun id =>
    (b.blocks.lookup id).getD (.ofTerminator .unreachable)

end Builder

/-- The function that a list of declarations describes, if it is well formed. -/
def Function.build (name : String) (declarations : List Declaration) : Except Error Function := do
  let b := declarations.foldl Builder.declare {}
  let f : Function := { name, names := b.names, blocks := b.allBlocks }
  f.validate
  return f

end RangeFlow
