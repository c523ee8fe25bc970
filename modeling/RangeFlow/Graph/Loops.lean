import RangeFlow.Graph.Dominators
import RangeFlow.IdSet

/-! # Natural loops

An edge to a node that dominates its source closes a loop. The loop of a header consists of the
header and of all nodes that reach such a source without passing through the header.
-/

namespace RangeFlow

/-- An edge that leaves a loop. -/
structure LoopExit where
  exiting : Nat
  exit : Nat
  deriving Repr, DecidableEq

/-- A loop of a graph. -/
structure NaturalLoop where
  /-- The node through which the loop is entered. -/
  header : Nat
  /-- The nodes of the loop, the header among them. -/
  body : IdSet
  /-- The sources of the edges back to the header. -/
  latches : List Nat
  /-- The only predecessor of the header outside the loop. -/
  preheader : Option Nat
  /-- The edges that leave the loop, ascending. -/
  exits : List LoopExit
  /-- Number of other loops around this one. -/
  depth : Nat
  /-- The header of the smallest other loop around this one. -/
  parent : Option Nat
  deriving Repr, DecidableEq

namespace NaturalLoop

/-- Is the node in the loop? -/
def contains (l : NaturalLoop) (node : Nat) : Bool := l.body.contains node

/-- Number of nodes. -/
def size (l : NaturalLoop) : Nat := l.body.size

/-- The latch, if there is just one. -/
def singleLatch? (l : NaturalLoop) : Option Nat :=
  match l.latches with
  | [latch] => some latch
  | _ => none

/-- A loop of which only header, nodes, latches and depth are known. -/
def ofParts (header : Nat) (body latches : List Nat) (depth : Nat) : NaturalLoop where
  header
  body := .ofList (header :: body)
  latches
  preheader := none
  exits := []
  depth
  parent := none

end NaturalLoop

/-- The loops of a graph. -/
structure LoopForest where
  /-- Number of nodes of the graph. -/
  size : Nat
  loops : List NaturalLoop
  deriving Repr, DecidableEq

namespace LoopForest

/-- A graph without loops. -/
def empty (size : Nat) : LoopForest := ⟨size, []⟩

/-- The forest with one more loop. -/
def add (f : LoopForest) (l : NaturalLoop) : LoopForest := { f with loops := f.loops ++ [l] }

/-- The loop with the given header. -/
def forHeader? (f : LoopForest) (header : Nat) : Option NaturalLoop :=
  f.loops.find? (·.header == header)

/-- The first of the deepest loops around a node. -/
def innermost? (f : LoopForest) (node : Nat) : Option NaturalLoop :=
  if node < f.size then
    f.loops.foldl (fun best l =>
      if l.contains node && best.all (fun m : NaturalLoop => decide (m.depth < l.depth)) then some l
      else best) none
  else none

/-- Number of loops around a node. -/
def depthOf (f : LoopForest) (node : Nat) : Nat :=
  match f.innermost? node with
  | some l => l.depth + 1
  | none => 0

/-- Is the node the header of a loop? -/
def isHeader (f : LoopForest) (node : Nat) : Bool := (f.forHeader? node).isSome

/-- The nodes with an edge to `header` that `header` dominates, ascending. -/
def latchesOf (g : Graph) (t : DominatorTree) (header : Nat) : List Nat :=
  let sources := g.preds header
  (List.range g.size).filter fun n =>
    t.isReachable n && sources.contains n && t.dominates header n

/-- The header and all nodes that reach a latch without passing through it, by a table of
    predecessors. -/
def bodyOf (back : Array (List Nat)) (header : Nat) (latches : List Nat) : IdSet :=
  let inside := Graph.mark back.size (header :: Graph.searchAvoiding back [header] latches)
  ⟨(List.range back.size).filter fun n => inside.getD n false, List.pairwise_lt_range.filter _⟩

/-- The only element of a list. -/
def only? : List Nat → Option Nat
  | [x] => some x
  | _ => none

/-- The edges that leave a set of nodes, ascending. -/
def exitsOf (g : Graph) (body : IdSet) : List LoopExit :=
  body.toList.flatMap fun n =>
    (((g.succs n).filter fun s => !body.contains s).mergeSort fun a b => decide (a ≤ b)).map
      fun s => ⟨n, s⟩

/-- The loop of a header, by itself. -/
def naturalLoop? (g : Graph) (back : Array (List Nat)) (t : DominatorTree) (header : Nat) :
    Option NaturalLoop :=
  match latchesOf g t header with
  | [] => none
  | latches =>
      let body := bodyOf back header latches
      some
        { header
          body
          latches
          preheader := only? ((g.preds header).filter fun p => !body.contains p)
          exits := exitsOf g body
          depth := 0
          parent := none }

/-- The loop with its place among all loops. -/
def nest (loops : List NaturalLoop) (l : NaturalLoop) : NaturalLoop :=
  let around := loops.filter fun m => m.header != l.header && m.contains l.header
  let smallest := around.foldl (fun best m =>
    if best.all (fun b : NaturalLoop => decide (m.size < b.size)) then some m else best) none
  { l with depth := around.length, parent := smallest.map NaturalLoop.header }

/-- The natural loops of a graph, by header. -/
def ofGraph (g : Graph) (t : DominatorTree) : LoopForest :=
  let back := g.reverse.table
  let loops := (List.range g.size).filterMap (naturalLoop? g back t)
  ⟨g.size, loops.map (nest loops)⟩

end LoopForest

end RangeFlow
