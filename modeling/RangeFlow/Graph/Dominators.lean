import RangeFlow.Graph.Search

/-! # Dominators

A node dominates another if every path from the entry to the second passes through the first: the
second cannot be reached when the first is avoided. The strict dominators of a node form a chain,
and the nearest of them is its immediate dominator.
-/

namespace RangeFlow

/-- The dominators of the nodes of a graph. -/
structure DominatorTree where
  entry : Nat
  /-- Per node: its strict dominators, the nearest one first; nothing for nodes that cannot be
      reached. -/
  above : Array (Option (List Nat))
  deriving Repr, DecidableEq

namespace DominatorTree

/-- Per node: a mark at each node that is reached from the entry without passing through it. -/
def reachedWithout (g : Graph) (entry : Nat) : Array (Array Bool) :=
  let next := g.table
  Array.ofFn fun node : Fin g.size => Graph.mark g.size (Graph.searchAvoiding next [node] [entry])

/-- Per node: the other nodes without which it is not reached, ascending. -/
def needed (g : Graph) (entry : Nat) : Array (List Nat) :=
  let without := reachedWithout g entry
  Array.ofFn fun node : Fin g.size => (List.range g.size).filter fun a =>
    a != node && !((without.getD a #[]).getD node false)

/-- The dominators of a graph, seen from an entry node. A dominator is the nearer the more
    dominators it has itself. -/
def ofGraph (g : Graph) (entry : Nat) : DominatorTree :=
  let reached := Graph.mark g.size (g.postorder entry)
  let strict := needed g entry
  let depth := strict.map List.length
  { entry
    above := Array.ofFn fun node : Fin g.size =>
      if reached.getD node false then
        some ((strict.getD node []).mergeSort fun a b => decide (depth.getD b 0 ≤ depth.getD a 0))
      else none }

/-- Number of nodes of the graph. -/
def size (t : DominatorTree) : Nat := t.above.size

/-- The strict dominators of a node, the nearest one first; there are none of a node that cannot be
    reached. -/
def strictDominators (t : DominatorTree) (node : Nat) : List Nat :=
  (t.above.getD node none).getD []

/-- Can the node be reached from the entry? -/
def isReachable (t : DominatorTree) (node : Nat) : Bool := (t.above.getD node none).isSome

/-- Number of strict dominators. -/
def depth (t : DominatorTree) (node : Nat) : Nat := (t.strictDominators node).length

/-- Do all paths from the entry to `b` pass through `a`, which is another node? -/
def strictlyDominates (t : DominatorTree) (a b : Nat) : Bool := (t.strictDominators b).contains a

/-- Do all paths from the entry to `b` pass through `a`? A node that cannot be reached dominates
    only itself. -/
def dominates (t : DominatorTree) (a b : Nat) : Bool := a == b || t.strictlyDominates a b

/-- The nearest strict dominator. -/
def immediate? (t : DominatorTree) (node : Nat) : Option Nat := (t.strictDominators node).head?

/-- The dominators of a node, from itself up to the entry. -/
def dominators (t : DominatorTree) (node : Nat) : List Nat :=
  if t.isReachable node then node :: t.strictDominators node else []

/-- The nodes whose immediate dominator this is, ascending. -/
def children (t : DominatorTree) (node : Nat) : List Nat :=
  (List.range t.size).filter fun n => t.immediate? n == some node

end DominatorTree

end RangeFlow
