import RangeFlow.Program.Function

/-! # Tables of a function

The edges, definitions and uses of a function can be kept in tables, which are filled in passes over
its blocks and names: first the edges are numbered and listed with the blocks that they leave and
enter, then the definitions and the uses of names are noted. What is noted of a block or a name that
does not exist is lost.
-/

namespace RangeFlow

/-- What is read off the blocks and the names of a function. -/
structure Tables where
  edges : List Edge
  /-- Per block: the edges that leave it. -/
  succs : Array (List EdgeId)
  /-- Per block: the edges that enter it. -/
  preds : Array (List EdgeId)
  /-- Per name: where it is defined. -/
  defs : Array (Option DefSite)
  /-- Per name: where it is read. -/
  uses : Array (List UseSite)
  deriving Repr, DecidableEq

namespace Tables

/-- Nothing about so many blocks and names. -/
def empty (blocks names : Nat) : Tables where
  edges := []
  succs := .replicate blocks []
  preds := .replicate blocks []
  defs := .replicate names none
  uses := .replicate names []

/-- Put an entry at the end of a row. -/
def addEntry {α : Type} (rows : Array (List α)) (row : Nat) (entry : α) : Array (List α) :=
  rows.modify row (· ++ [entry])

/-- Give an edge the next number. -/
def addEdge (t : Tables) (e : Edge) : Tables :=
  { t with
    edges := t.edges ++ [e]
    succs := addEntry t.succs e.src t.edges.length
    preds := addEntry t.preds e.dst t.edges.length }

/-- Add the edges that leave a block. -/
def addTargets (f : Function) (t : Tables) : Block × BlockId → Tables
  | (block, src) => block.outgoing.foldl (fun t (dst, flags) =>
      (f.block? dst).elim t fun target =>
        t.addEdge { src, dst, flags := { flags with split := block.split || target.split } }) t

/-- Note where a name is defined. -/
def define (site : DefSite) (t : Tables) (name : NameId) : Tables :=
  { t with defs := t.defs.setIfInBounds name (some site) }

/-- Note where a name is read. -/
def addUse (site : UseSite) (t : Tables) (name : NameId) : Tables :=
  { t with uses := addEntry t.uses name site }

/-- Note the names of a merge. -/
def addPhi (id : BlockId) (t : Tables) : Phi × Nat → Tables
  | (phi, i) => phi.operands.foldl
      (fun t o => o.value.name?.elim t (t.addUse (.phi id i o.predecessor)))
      (t.define (.phi id i) phi.dest)

/-- Note the names of a statement. -/
def addStmt (id : BlockId) (t : Tables) : Stmt × Nat → Tables
  | (stmt, i) =>
      stmt.usedNames.foldl (addUse (.stmt id i)) (stmt.dest?.elim t (t.define (.stmt id i)))

/-- Note the names of a block. -/
def addNames (t : Tables) : Block × BlockId → Tables
  | (block, id) =>
      let t := block.phis.zipIdx.foldl (addPhi id) t
      let t := block.stmts.zipIdx.foldl (addStmt id) t
      block.terminator.usedNames.foldl (addUse (.terminator id)) t

/-- Note a name that has a value before the entry block. -/
def addDefault (t : Tables) : NameInfo × NameId → Tables
  | (info, name) => if info.origin.isDefault then t.define .default name else t

/-- The edges that leave a block. -/
def succEdges (t : Tables) (block : BlockId) : List EdgeId := t.succs.getD block []

/-- The edges that enter a block. -/
def predEdges (t : Tables) (block : BlockId) : List EdgeId := t.preds.getD block []

/-- The blocks that the edges into a block come from. -/
def predecessors (t : Tables) (block : BlockId) : List BlockId :=
  (t.predEdges block).filterMap fun id => (t.edges[id]?).map Edge.src

/-- Where a name is defined. -/
def defSite? (t : Tables) (name : NameId) : Option DefSite := t.defs.getD name none

/-- The uses of a name. -/
def usesOf (t : Tables) (name : NameId) : List UseSite := t.uses.getD name []

end Tables

/-- The tables of a function. -/
def Function.tables (f : Function) : Tables :=
  let t := f.blocks.zipIdx.foldl (Tables.addTargets f) (.empty f.blockCount f.nameCount)
  let t := f.names.zipIdx.foldl Tables.addDefault t
  f.blocks.zipIdx.foldl Tables.addNames t

end RangeFlow
