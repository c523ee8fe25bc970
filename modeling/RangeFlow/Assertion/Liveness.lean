import RangeFlow.BitSet
import RangeFlow.Program.Function

/-! # Liveness

A name is live where some path reads it before it is defined again. Merges define their names at
the head of their block and read their operands at the end of the predecessor.

Live names are computed backwards. The names live at the heads of its successors give those live at
the end of a block, and these give those live at its head; the blocks are visited until a whole
round changes nothing. Sets refuse names that the function does not have: there is a result only if
the rounds end and nothing is refused.
-/

namespace RangeFlow

/-- Put numbers in, one after the other. -/
def BitSet.insertAll? (s : BitSet) (members : List Nat) : Option BitSet :=
  members.foldlM (fun s i => (s.insert? i).map Prod.snd) s

/-- What a block, or the first part of it, does with names. -/
structure BlockNames where
  /-- The names that are read before they are defined. -/
  reads : BitSet
  defs : BitSet
  deriving DecidableEq

namespace BlockNames

/-- Note the names that are read and have not been defined. -/
def noteReads (sets : BlockNames) (names : List NameId) : Option BlockNames := do
  let reads ← sets.reads.insertAll? (names.filter fun n => !sets.defs.contains n)
  return { sets with reads }

/-- Note what a statement reads, then what it defines. -/
def noteStmt (sets : BlockNames) (stmt : Stmt) : Option BlockNames := do
  let sets ← sets.noteReads stmt.usedNames
  let defs ← sets.defs.insertAll? stmt.dest?.toList
  return { sets with defs }

/-- What a block does with the names of a function that has so many. -/
def ofBlock (nameCount : Nat) (block : Block) : Option BlockNames := do
  let defs ← (BitSet.empty nameCount).insertAll? (block.phis.map Phi.dest)
  let sets ← block.stmts.foldlM noteStmt ⟨.empty nameCount, defs⟩
  sets.noteReads block.terminator.usedNames

end BlockNames

namespace Block

/-- The names that the merges of the block read, each with the predecessor at whose end. -/
def carried (block : Block) : List (BlockId × NameId) :=
  block.phis.flatMap fun phi =>
    phi.operands.filterMap fun o => o.value.name?.map (o.predecessor, ·)

end Block

namespace Function

/-- Note that a name is read at the end of a block, if there is such a block. -/
def noteCarried (sets : Array BitSet) (read : BlockId × NameId) : Option (Array BitSet) :=
  match sets[read.1]? with
  | some s => (s.insert? read.2).map fun next => sets.setIfInBounds read.1 next.2
  | none => some sets

/-- Per block: the names that merges of other blocks read at its end. -/
def carriedNames (f : Function) : Option (Array BitSet) :=
  (f.blocks.flatMap Block.carried).foldlM noteCarried
    (Array.replicate f.blockCount (.empty f.nameCount))

end Function

/-- What liveness is computed from. -/
structure NameFlow where
  /-- Per block: what it does with names. -/
  blocks : Array BlockNames
  /-- Per block: the names read at its end by merges. -/
  carried : Array BitSet
  /-- Per block: where control goes. -/
  succs : Array (List BlockId)

/-- Where names are live. -/
structure Liveness where
  /-- Per block: the names live at its head. -/
  heads : Array BitSet
  /-- Per block: the names live at its end. -/
  ends : Array BitSet
  deriving DecidableEq

namespace NameFlow

/-- The names live at the end of a block. -/
def endOf (flow : NameFlow) (live : Liveness) (block : BlockId) : Option BitSet := do
  let carried ← flow.carried[block]?
  (flow.succs.getD block []).foldlM (fun set next => do
    let head ← live.heads[next]?
    return (← set.union? head).2) carried

/-- The names live at the head of a block, by those live at its end. -/
def headOf (flow : NameFlow) (block : BlockId) (atEnd : BitSet) : Option BitSet := do
  let names ← flow.blocks[block]?
  let (_, passing) ← atEnd.diff? names.defs
  return (← passing.union? names.reads).2

/-- Compute the live names of a block anew, and note if that is a change. -/
def visit (flow : NameFlow) (state : Liveness × Bool) (block : BlockId) :
    Option (Liveness × Bool) := do
  let atEnd ← flow.endOf state.1 block
  let atHead ← flow.headOf block atEnd
  let same := state.1.ends[block]? == some atEnd && state.1.heads[block]? == some atHead
  let heads := state.1.heads.setIfInBounds block atHead
  let ends := state.1.ends.setIfInBounds block atEnd
  return ({ heads, ends }, state.2 || !same)

/-- Visit the blocks in order, again and again until a round changes nothing. There is a result if
    that takes at most so many rounds. -/
def settle (flow : NameFlow) (order : List BlockId) : Nat → Liveness → Option Liveness
  | 0, _ => none
  | rounds + 1, live => do
      let (next, changed) ← order.foldlM flow.visit (live, false)
      if changed then settle flow order rounds next else some next

end NameFlow

namespace Function

/-- The reads, definitions and edges of the blocks. -/
def nameFlow (f : Function) : Option NameFlow := do
  let blocks ← f.blocks.mapM (BlockNames.ofBlock f.nameCount)
  let carried ← f.carriedNames
  return { blocks := blocks.toArray, carried, succs := f.graph.table }

/-- Where the names of the function are live, if that can be computed in so many rounds. At first
    the names live at the head of a block are those it reads. -/
def liveness? (f : Function) (rounds : Nat) : Option Liveness := do
  let flow ← f.nameFlow
  flow.settle f.reversePostorder.reverse rounds
    { heads := flow.blocks.map BlockNames.reads, ends := flow.carried }

/-- Where the names of the function are live. All rounds but the last make a name live at the head
    or at the end of a block. -/
def liveness (f : Function) : Liveness :=
  (f.liveness? (2 * (f.blockCount * f.nameCount) + 1)).getD ⟨#[], #[]⟩

end Function

namespace Liveness

/-- Is the name live at the head of the block? -/
def atHead (live : Liveness) (block : BlockId) (name : NameId) : Bool :=
  (live.heads[block]?).any (·.contains name)

/-- Is the name live at the end of the block? -/
def atEnd (live : Liveness) (block : BlockId) (name : NameId) : Bool :=
  (live.ends[block]?).any (·.contains name)

/-- Is the name live on the edge: at the head of the target, or read there by a merge? -/
def onEdge (live : Liveness) (f : Function) (e : Edge) (name : NameId) : Bool :=
  live.atHead e.dst name ||
    (f.block? e.dst).any fun block =>
      block.phis.any fun phi => phi.operandFrom? e.src == some (.name name)

/-- Is the name live after a statement of a block? -/
def afterStmt (live : Liveness) (f : Function) (block : BlockId) (index : Nat) (name : NameId) :
    Bool :=
  (f.block? block).any fun b =>
    (b.stmts.drop (index + 1)).any (·.usedNames.contains name) ||
      b.terminator.usedNames.contains name || live.atEnd block name

end Liveness

end RangeFlow
