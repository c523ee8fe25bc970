import RangeFlow.Graph.Dominators
import RangeFlow.Program.Statement

/-! # Functions

A function is a list of names and a list of blocks in single assignment form. Edges, definitions
and uses are read off the blocks.
-/

namespace RangeFlow

/-- Where the value of a name comes from. -/
inductive Origin where
  /-- It is the parameter at an index, perhaps one that is never null. -/
  | param (index : Nat) (nonnull : Bool)
  /-- It is a variable that has never been set. -/
  | uninit
  /-- A statement or a merge defines it. -/
  | defined
  deriving Repr, DecidableEq

/-- Does the name have a value before the entry block? -/
def Origin.isDefault : Origin → Bool
  | param _ _ => true
  | uninit => true
  | defined => false

/-- The type and the origin of a name. -/
structure NameInfo where
  ty : ScalarType
  origin : Origin
  deriving Repr, DecidableEq

/-- How control takes an edge. -/
structure EdgeFlags where
  /-- The condition of a branch holds. -/
  onTrue : Bool := false
  /-- The condition of a branch fails. -/
  onFalse : Bool := false
  /-- An exception is raised. -/
  abnormal : Bool := false
  /-- One end is a block that was put on an edge. -/
  split : Bool := false
  deriving Repr, DecidableEq

namespace EdgeFlags

/-- All flags of both. -/
def or (a b : EdgeFlags) : EdgeFlags where
  onTrue := a.onTrue || b.onTrue
  onFalse := a.onFalse || b.onFalse
  abnormal := a.abnormal || b.abnormal
  split := a.split || b.split

/-- The flags as the digits of a binary number. -/
def toNat (f : EdgeFlags) : Nat :=
  f.onTrue.toNat + 2 * f.onFalse.toNat + 4 * f.abnormal.toNat + 8 * f.split.toNat

end EdgeFlags

/-- A way from the end of one block to the head of another. -/
structure Edge where
  src : BlockId
  dst : BlockId
  flags : EdgeFlags
  deriving Repr, DecidableEq

/-- Is the edge taken by an exception? -/
def Edge.isAbnormal (e : Edge) : Bool := e.flags.abnormal

/-- Where a name gets its value. -/
inductive DefSite where
  /-- Before the entry block. -/
  | default
  /-- In a merge of a block. -/
  | phi (block : BlockId) (index : Nat)
  /-- In a statement of a block. -/
  | stmt (block : BlockId) (index : Nat)
  deriving Repr, DecidableEq

/-- Where a name is read. -/
inductive UseSite where
  /-- In a merge, at the end of a predecessor. -/
  | phi (block : BlockId) (index : Nat) (predecessor : BlockId)
  /-- In a statement. -/
  | stmt (block : BlockId) (index : Nat)
  /-- In a terminator. -/
  | terminator (block : BlockId)
  deriving Repr, DecidableEq

namespace Block

/-- The targets of the block with the flags each of them comes with, in order. -/
def flaggedTargets (block : Block) : List (BlockId × EdgeFlags) :=
  let normal :=
    match block.terminator with
    | .branch _ onTrue onFalse => [(onTrue, { onTrue := true }), (onFalse, { onFalse := true })]
    | t => t.targets.map fun target => (target, {})
  normal ++ block.abnormal.map fun target => (target, { abnormal := true })

/-- Add a target to a list without repetitions; a repeated target collects the flags. -/
def addTarget (targets : List (BlockId × EdgeFlags)) (new : BlockId × EdgeFlags) :
    List (BlockId × EdgeFlags) :=
  if targets.any (·.1 == new.1) then
    targets.map fun t => if t.1 == new.1 then (t.1, t.2.or new.2) else t
  else targets ++ [new]

/-- The targets of the block without repetitions. -/
def outgoing (block : Block) : List (BlockId × EdgeFlags) :=
  block.flaggedTargets.foldl addTarget []

/-- The names the block defines, in order. -/
def defs (block : Block) : List NameId :=
  block.phis.map Phi.dest ++ block.stmts.filterMap Stmt.dest?

/-- The names the block defines, with their places. -/
def defSites (block : Block) (id : BlockId) : List (NameId × DefSite) :=
  block.phis.zipIdx.map (fun (phi, i) => (phi.dest, .phi id i)) ++
    block.stmts.zipIdx.filterMap fun (stmt, i) => stmt.dest?.map (·, .stmt id i)

/-- The names the block reads, with their places. -/
def useSites (block : Block) (id : BlockId) : List (NameId × UseSite) :=
  (block.phis.zipIdx.flatMap fun (phi, i) =>
    phi.operands.filterMap fun o => o.value.name?.map (·, .phi id i o.predecessor)) ++
  (block.stmts.zipIdx.flatMap fun (stmt, i) => stmt.usedNames.map (·, .stmt id i)) ++
  block.terminator.usedNames.map (·, .terminator id)

end Block

/-- A function in single assignment form. -/
structure Function where
  name : String
  names : List NameInfo
  blocks : List Block
  deriving Repr, DecidableEq

namespace Function

/-- The block where execution starts. -/
def entry (_ : Function) : BlockId := 0

/-- Number of blocks. -/
def blockCount (f : Function) : Nat := f.blocks.length

/-- Number of names. -/
def nameCount (f : Function) : Nat := f.names.length

/-- The block of a number. -/
def block? (f : Function) (id : BlockId) : Option Block := f.blocks[id]?

/-- The type of a name. -/
def typeOf? (f : Function) (name : NameId) : Option ScalarType := (f.names[name]?).map NameInfo.ty

/-- The type of a name; nothing is followed for a name that was never allocated. -/
def typeOf (f : Function) (name : NameId) : ScalarType := (f.typeOf? name).getD (.float false)

/-- The type of an operand; a literal has the type of its place. -/
def operandType (f : Function) (place : ScalarType) (operand : Operand) : ScalarType :=
  (operand.name?.bind f.typeOf?).getD place

/-- The type in which two operands are compared, unless both are literals. -/
def comparisonType? (f : Function) (lhs rhs : Operand) : Option ScalarType :=
  (lhs.name?.or rhs.name?).bind f.typeOf?

/-- The edges of the function: for each block those to its targets that exist. -/
def edges (f : Function) : List Edge :=
  let blocks := f.blocks.toArray
  f.blocks.zipIdx.flatMap fun (block, src) =>
    block.outgoing.filterMap fun (dst, flags) =>
      (blocks[dst]?).map fun target =>
        { src, dst, flags := { flags with split := block.split || target.split } }

/-- The edge of a number. -/
def edge? (f : Function) (id : EdgeId) : Option Edge := f.edges[id]?

/-- The numbers of the edges that satisfy a test. -/
def edgesWhere (f : Function) (test : Edge → Bool) : List EdgeId :=
  (f.edges.zipIdx.filter fun (e, _) => test e).map Prod.snd

/-- The edges that leave a block. -/
def succEdges (f : Function) (block : BlockId) : List EdgeId := f.edgesWhere (·.src == block)

/-- The edges that enter a block. -/
def predEdges (f : Function) (block : BlockId) : List EdgeId := f.edgesWhere (·.dst == block)

/-- The blocks from which a block is entered. -/
def predecessors (f : Function) (block : BlockId) : List BlockId :=
  (f.edges.filter (·.dst == block)).map Edge.src

/-- The edge between two blocks. -/
def findEdge? (f : Function) (src dst : BlockId) : Option EdgeId :=
  f.edges.findIdx? fun e => e.src == src && e.dst == dst

/-- Number of edges that leave a block without an exception. -/
def normalSuccessors (f : Function) (block : BlockId) : Nat :=
  f.edges.countP fun e => e.src == block && !e.isAbnormal

/-- May an exception leave the block? -/
def hasAbnormalSuccessor (f : Function) (block : BlockId) : Bool :=
  f.edges.any fun e => e.src == block && e.isAbnormal

/-- Does the edge lead from a block with other successors to a block with other predecessors? -/
def isCritical (f : Function) (e : Edge) : Bool :=
  decide (1 < (f.succEdges e.src).length) && decide (1 < (f.predEdges e.dst).length)

/-- All definitions, those before the entry block first. -/
def defSites (f : Function) : List (NameId × DefSite) :=
  (f.names.zipIdx.filterMap fun (info, n) =>
    if info.origin.isDefault then some (n, .default) else none) ++
  f.blocks.zipIdx.flatMap fun (block, id) => block.defSites id

/-- Where a name is defined; the last definition counts. -/
def defSite? (f : Function) (name : NameId) : Option DefSite :=
  if name < f.nameCount then
    ((f.defSites.filter (·.1 == name)).getLast?).map Prod.snd
  else none

/-- The statement that defines a name. -/
def defStmt? (f : Function) (name : NameId) : Option Stmt :=
  match f.defSite? name with
  | some (.stmt block index) => (f.block? block).bind (·.stmts[index]?)
  | _ => none

/-- The right-hand side that defines a name. -/
def defRhs? (f : Function) (name : NameId) : Option Rhs := (f.defStmt? name).bind Stmt.rhs?

/-- The merge that defines a name, with its block. -/
def defPhi? (f : Function) (name : NameId) : Option (BlockId × Phi) :=
  match f.defSite? name with
  | some (.phi block index) => ((f.block? block).bind (·.phis[index]?)).map (block, ·)
  | _ => none

/-- All uses, in the order of the blocks. -/
def useSites (f : Function) : List (NameId × UseSite) :=
  f.blocks.zipIdx.flatMap fun (block, id) => block.useSites id

/-- The uses of a name. -/
def uses (f : Function) (name : NameId) : List UseSite :=
  if name < f.nameCount then (f.useSites.filter (·.1 == name)).map Prod.snd else []

/-- Is the name read in just one place? -/
def hasSingleUse (f : Function) (name : NameId) : Bool := (f.uses name).length == 1

/-- Is the name an operand of a merge that an exception leads to? -/
def occursInAbnormalPhi (f : Function) (name : NameId) : Bool :=
  (f.uses name).any fun
    | .phi block _ predecessor =>
        ((f.findEdge? predecessor block).bind f.edge?).any Edge.isAbnormal
    | _ => false

/-- The graph of the blocks. -/
def graph (f : Function) : Graph := .ofEdges f.blockCount (f.edges.map fun e => (e.src, e.dst))

/-- The blocks that can be reached, each before the blocks that follow it, back edges apart. -/
def reversePostorder (f : Function) : List BlockId := f.graph.reversePostorder f.entry

/-- The dominators of the blocks. -/
def dominators (f : Function) : DominatorTree := .ofGraph f.graph f.entry

/-- The function with one more block. -/
def addBlock (f : Function) (block : Block) : Function × BlockId :=
  ({ f with blocks := f.blocks ++ [block] }, f.blockCount)

/-- The function with one block changed. -/
def modifyBlock (f : Function) (id : BlockId) (change : Block → Block) : Function :=
  { f with blocks := f.blocks.modify id change }

/-- The written form of the function. -/
protected def toString (f : Function) : String :=
  let params := f.names.zipIdx.filterMap fun (info, n) =>
    match info.origin with
    | .param _ _ => some (nameText n ++ ": " ++ toString info.ty)
    | _ => none
  let line (s : String) := "    " ++ s ++ "\n"
  let block : Block × Nat → String := fun (block, id) =>
    "  " ++ blockText id ++ ":\n" ++
      String.join (block.phis.map fun phi => line (toString phi)) ++
      String.join (block.stmts.map fun stmt => line (toString stmt)) ++
      line (toString block.terminator)
  f.name ++ " (" ++ ", ".intercalate params ++ ")\n" ++ String.join (f.blocks.zipIdx.map block)

instance : ToString Function := ⟨Function.toString⟩

end Function

end RangeFlow
