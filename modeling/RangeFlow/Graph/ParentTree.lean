import Mathlib.Data.PFun
import RangeFlow.Graph.Search

/-! # Immediate dominators by iteration

Every node is linked to a parent. The nodes are visited in reverse postorder, and the parent of a
node becomes the nearest common ancestor of those of its predecessors that have a parent already,
until a whole sweep changes nothing. The parent is then the immediate dominator. Nothing in the
loops bounds their number of rounds: a loop is the fixpoint of its body, which has a value only if
it ends.
-/

namespace RangeFlow

namespace ParentTree

/-- The parent of a node, if it has one. -/
def parentOf (parents : Array (Option Nat)) (node : Nat) : Option Nat := parents.getD node none

/-- Of two nodes, the one that comes later in the order climbs to its parent, until the two meet. -/
def climb (order : List Nat) (parents : Array (Option Nat)) (pair : Nat × Nat) :
    Nat ⊕ Nat × Nat :=
  let (a, b) := pair
  if a = b then .inl a
  else if order.idxOf b < order.idxOf a then
    match parentOf parents a with
    | some next => .inr (next, b)
    | none => .inl b
  else if order.idxOf a < order.idxOf b then
    match parentOf parents b with
    | some next => .inr (a, next)
    | none => .inl a
  else .inr (a, b)

/-- The nearest common ancestor of two nodes: where they meet when they climb. -/
noncomputable def commonAncestor (order : List Nat) (parents : Array (Option Nat)) (a b : Nat) :
    Part Nat :=
  PFun.fix (fun pair => .some (climb order parents pair)) (a, b)

/-- The predecessors of a node that have a parent. -/
def linkedPreds (g : Graph) (parents : Array (Option Nat)) (node : Nat) : List Nat :=
  (g.preds node).filter fun p => (parentOf parents p).isSome

/-- The nearest common ancestor of the predecessors that have a parent, if there are any. -/
noncomputable def joinedParent (g : Graph) (order : List Nat) (parents : Array (Option Nat))
    (node : Nat) : Part (Option Nat) :=
  match linkedPreds g parents node with
  | [] => .some none
  | first :: rest =>
      (rest.foldlM (fun current p => commonAncestor order parents p current) first).map some

/-- Give a node its new parent, and note if that is a change. -/
noncomputable def visit (g : Graph) (order : List Nat) (state : Array (Option Nat) × Bool)
    (node : Nat) : Part (Array (Option Nat) × Bool) :=
  (joinedParent g order state.1 node).map fun new =>
    if new.isSome && parentOf state.1 node != new then (state.1.setIfInBounds node new, true)
    else state

/-- Visit all nodes but the entry, in order. -/
noncomputable def sweep (g : Graph) (order : List Nat) (parents : Array (Option Nat)) :
    Part (Array (Option Nat) × Bool) :=
  order.tail.foldlM (visit g order) (parents, false)

/-- One sweep, after which another one follows if it has changed something. -/
noncomputable def sweepRound (g : Graph) (order : List Nat) (parents : Array (Option Nat)) :
    Part (Array (Option Nat) ⊕ Array (Option Nat)) :=
  (sweep g order parents).map fun state => if state.2 then .inr state.1 else .inl state.1

/-- Sweep until nothing changes. -/
noncomputable def settle (g : Graph) (order : List Nat) (parents : Array (Option Nat)) :
    Part (Array (Option Nat)) :=
  PFun.fix (sweepRound g order) parents

/-- At first only the entry has a parent: itself. -/
def initial (size entry : Nat) : Array (Option Nat) :=
  (Array.replicate size none).setIfInBounds entry (some entry)

/-- A node is one deeper than its parent. -/
def countDepth (parents : Array (Option Nat)) (depths : Array Nat) (node : Nat) : Array Nat :=
  match parentOf parents node with
  | some parent => depths.setIfInBounds node (depths.getD parent 0 + 1)
  | none => depths

/-- Per node: how often one climbs from it to the entry. A parent comes before its children. -/
def depthsOf (size : Nat) (order : List Nat) (parents : Array (Option Nat)) : Array Nat :=
  order.tail.foldl (countDepth parents) (Array.replicate size 0)

end ParentTree

/-- The immediate dominators of the nodes of a graph. -/
structure ParentTree where
  entry : Nat
  /-- Per node: its immediate dominator. The entry is its own, and nodes that cannot be reached
      have none. -/
  parents : Array (Option Nat)
  depths : Array Nat
  deriving Repr, DecidableEq

namespace ParentTree

/-- The immediate dominators of a graph, seen from an entry node. -/
noncomputable def ofGraph (g : Graph) (entry : Nat) : Part ParentTree :=
  let order := g.reversePostorder entry
  (settle g order (initial g.size entry)).map fun parents =>
    { entry, parents, depths := depthsOf g.size order parents }

/-- Can the node be reached from the entry? -/
def isReachable (t : ParentTree) (node : Nat) : Bool := (parentOf t.parents node).isSome

/-- The immediate dominator. -/
def immediate? (t : ParentTree) (node : Nat) : Option Nat :=
  if node = t.entry then none else parentOf t.parents node

/-- Number of strict dominators. -/
def depth (t : ParentTree) (node : Nat) : Nat := t.depths.getD node 0

/-- Climb while the node `a` is less deep, then see if one has come to it. -/
def climbTo (t : ParentTree) (a current : Nat) : Bool ⊕ Nat :=
  if t.depth a < t.depth current then
    match t.immediate? current with
    | some parent => .inr parent
    | none => .inl false
  else .inl (current == a)

/-- Does one come to the node `a` when one climbs from another to its depth? -/
noncomputable def comesTo (t : ParentTree) (a current : Nat) : Part Bool :=
  PFun.fix (fun current => .some (t.climbTo a current)) current

/-- Do all paths from the entry to `b` pass through `a`? A node that cannot be reached dominates
    only itself. -/
noncomputable def dominates (t : ParentTree) (a b : Nat) : Part Bool :=
  if a = b then .some true
  else if !t.isReachable a || !t.isReachable b then .some false
  else t.comesTo a b

end ParentTree

end RangeFlow
