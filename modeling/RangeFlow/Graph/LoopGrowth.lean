import Mathlib.Data.PFun
import RangeFlow.Graph.Loops

/-! # Loops grown from back edges

An edge back to a node that dominates its source adds a latch to the loop of this node, and the body
of the loop is grown backwards from the latch. When all edges have been seen, the bodies tell which
loop stands inside which, and a table gives the innermost loop around each node. Nothing bounds the
growth of a body or the climb from a loop to the loops around it: each of them is the fixpoint of
its step, which has a value only if it ends.
-/

namespace RangeFlow

namespace NaturalLoop

/-- The loop that consists of its header alone. -/
def ofHeader (header : Nat) : NaturalLoop where
  header
  body := .singleton header
  latches := []
  preheader := none
  exits := []
  depth := 0
  parent := none

end NaturalLoop

namespace LoopGrowth

/-- Take a node from the stack. A new one goes into the body, and its predecessors go on the stack,
    apart from the header and from those that are in already. -/
def growStep (g : Graph) (header : Nat) (state : IdSet × List Nat) : IdSet ⊕ IdSet × List Nat :=
  match state with
  | (body, []) => .inl body
  | (body, node :: rest) =>
      if body.contains node then .inr (body, rest)
      else
        let body := body.insert node
        let waiting := (g.preds node).filter fun p => p != header && !body.contains p
        .inr (body, waiting.reverse ++ rest)

/-- Grow a body until the stack is empty. -/
noncomputable def grow (g : Graph) (header : Nat) (body : IdSet) (stack : List Nat) : Part IdSet :=
  PFun.fix (fun state => .some (growStep g header state)) (body, stack)

/-- Add a latch, unless it is known, and grow the body from it. -/
noncomputable def addLatch (g : Graph) (l : NaturalLoop) (latch : Nat) : Part NaturalLoop :=
  (grow g l.header l.body [latch]).map fun body =>
    { l with body, latches := if l.latches.contains latch then l.latches else l.latches ++ [latch] }

/-- Note an edge. If its target dominates its source, the source is a latch of the target's loop.
    The loops are kept by their headers. -/
noncomputable def noteEdge (g : Graph) (t : DominatorTree) (loops : Array (Option NaturalLoop))
    (edge : Nat × Nat) : Part (Array (Option NaturalLoop)) :=
  let (node, succ) := edge
  if t.dominates succ node then
    (addLatch g ((loops.getD succ none).getD (.ofHeader succ)) node).map fun l =>
      loops.setIfInBounds succ (some l)
  else .some loops

/-- The edges that leave nodes that can be reached, the sources ascending. -/
def edgesInReach (g : Graph) (t : DominatorTree) : List (Nat × Nat) :=
  ((List.range g.size).filter t.isReachable).flatMap fun node => (g.succs node).map (node, ·)

/-- The loops by their headers, without their place among each other. -/
noncomputable def byHeader (g : Graph) (t : DominatorTree) : Part (Array (Option NaturalLoop)) :=
  (edgesInReach g t).foldlM (noteEdge g t) (Array.replicate g.size none)

/-- The loop with its preheader and its exits. -/
def withBorder (g : Graph) (l : NaturalLoop) : NaturalLoop :=
  { l with
    preheader := LoopForest.only? ((g.preds l.header).filter fun p => !l.body.contains p)
    exits := LoopForest.exitsOf g l.body }

/-- The first of the smallest loops. -/
def smallest? (loops : List NaturalLoop) : Option NaturalLoop :=
  loops.foldl (fun best m =>
    if best.all (fun b : NaturalLoop => decide (m.size < b.size)) then some m else best) none

/-- The header of the smallest loop, other than the one at this index, that contains a node. -/
def parent? (loops : List NaturalLoop) (index node : Nat) : Option Nat :=
  let around := loops.zipIdx.filter fun (m, i) => i != index && m.contains node
  (smallest? (around.map Prod.fst)).map NaturalLoop.header

/-- Climb from a header to the header of the parent, and count that. -/
def climbStep (loops : List NaturalLoop) (state : Option Nat × Nat) : Nat ⊕ Option Nat × Nat :=
  match state with
  | (none, depth) => .inl depth
  | (some header, depth) =>
      .inr ((loops.find? (·.header == header)).bind NaturalLoop.parent, depth + 1)

/-- Climb from a header as far as there are parents. -/
noncomputable def climb (loops : List NaturalLoop) (current : Option Nat) (depth : Nat) :
    Part Nat :=
  PFun.fix (fun state => .some (climbStep loops state)) (current, depth)

/-- The loops with their parents. -/
def withParents (loops : List NaturalLoop) : List NaturalLoop :=
  loops.zipIdx.map fun (l, i) => { l with parent := parent? loops i l.header }

/-- The loop with its depth, where every loop has its parent. -/
noncomputable def withDepth (loops : List NaturalLoop) (l : NaturalLoop) : Part NaturalLoop :=
  (climb loops l.parent 0).map fun depth => { l with depth }

/-- The loops with their parents and depths. -/
noncomputable def nest (loops : List NaturalLoop) : Part (List NaturalLoop) :=
  (withParents loops).mapM (withDepth (withParents loops))

end LoopGrowth

/-- Loops with a table of their nodes. -/
structure LoopTable where
  loops : List NaturalLoop
  /-- Per node: the index of the innermost loop around it. -/
  slots : Array (Option Nat)
  deriving DecidableEq

namespace LoopTable

/-- No loops around so many nodes. -/
def empty (size : Nat) : LoopTable := ⟨[], .replicate size none⟩

/-- Let a node belong to a loop that is about to be added, unless it belongs to one as deep. -/
def claim (loops : List NaturalLoop) (l : NaturalLoop) (slots : Array (Option Nat)) (node : Nat) :
    Option (Array (Option Nat)) :=
  match slots[node]? with
  | none => some slots
  | some none => some (slots.setIfInBounds node (some loops.length))
  | some (some index) =>
      (loops[index]?).map fun known =>
        if l.depth ≤ known.depth then slots else slots.setIfInBounds node (some loops.length)

/-- The table with one more loop. -/
def add? (table : LoopTable) (l : NaturalLoop) : Option LoopTable :=
  (l.body.toList.foldlM (claim table.loops l) table.slots).map fun slots =>
    { loops := table.loops ++ [l], slots }

/-- The innermost loop around a node. -/
def innermost? (table : LoopTable) (node : Nat) : Option NaturalLoop :=
  (table.slots[node]?).join.bind (table.loops[·]?)

/-- The loops of a graph, by header. The loops that are kept by their headers may be listed in any
    order before they are compared with each other. -/
noncomputable def detect (g : Graph) (t : DominatorTree)
    (listed : List NaturalLoop → List NaturalLoop) : Part LoopTable := do
  let found ← LoopGrowth.byHeader g t
  let nested ← LoopGrowth.nest (listed ((found.toList.filterMap id).map (LoopGrowth.withBorder g)))
  .ofOption ((nested.mergeSort fun l m => decide (l.header ≤ m.header)).foldlM add? (.empty g.size))

end LoopTable

end RangeFlow
