import Mathlib.Data.Finset.Card
import Mathlib.Data.PFun
import RangeFlow.Graph.Search

/-! # Depth-first orders by recursion and by a stack

The order in which a search lists nodes can be had in two more ways. By recursion a node is listed
after everything that is listed from its successors. With a stack of tasks a successor is put on the
stack only if it has not been seen, which does not keep it from being seen before its turn comes.
Nothing bounds the number of tasks: the loop is the fixpoint of its step, which has a value only if
it ends.
-/

namespace RangeFlow.Graph

/-- The nodes of the graph that are not among some others. -/
def unseen (g : Graph) (seen : List Nat) : Finset Nat := (Finset.range g.size).filter (· ∉ seen)

/-- A node that is seen now is one less to see. -/
theorem unseen_append_cons_lt {g : Graph} {node : Nat} {seen : List Nat} (below : List Nat)
    (fresh : node < g.size ∧ node ∉ seen) :
    (g.unseen (below ++ node :: seen)).card < (g.unseen seen).card := by
  refine Finset.card_lt_card (Finset.ssubset_iff_of_subset ?_ |>.mpr ⟨node, ?_, ?_⟩)
  · refine Finset.monotone_filter_right _ fun n _ absent member => absent ?_
    exact List.mem_append_right _ (List.mem_cons_of_mem _ member)
  · exact Finset.mem_filter.mpr ⟨Finset.mem_range.mpr fresh.1, fresh.2⟩
  · exact fun member => (Finset.mem_filter.mp member).2 (by simp)

/-- Visit nodes in their order, apart from those that have been seen. A visit to a node visits its
    successors, then lists it. Seen are the nodes that have been listed, and those whose successors
    are being visited. -/
def visitEach (g : Graph) (seen nodes : List Nat) : List Nat :=
  match nodes with
  | [] => []
  | node :: rest =>
      if node < g.size ∧ node ∉ seen then
        let below := visitEach g (node :: seen) (g.succs node)
        below ++ node :: visitEach g (below ++ node :: seen) rest
      else visitEach g seen rest
termination_by ((g.unseen seen).card, nodes.length)
decreasing_by
  · next fresh => exact Prod.Lex.left _ _ (unseen_append_cons_lt [] fresh)
  · next fresh => exact Prod.Lex.left _ _ (unseen_append_cons_lt _ fresh)
  · exact Prod.Lex.right _ (by simp)

/-- The nodes that a recursive search lists from a start. -/
def recursivePostorder (g : Graph) (start : Nat) : List Nat := g.visitEach [] [start]

/-- Do the next task. When a node is entered, its successors that have not been seen are put on the
    stack, the first one on top. The nodes listed so far come last. -/
def taskStep (g : Graph) (state : Array Bool × List Task × List Nat) :
    List Nat ⊕ Array Bool × List Task × List Nat :=
  match state with
  | (_, [], order) => .inl order.reverse
  | (seen, .leave node :: rest, order) => .inr (seen, rest, node :: order)
  | (seen, .enter node :: rest, order) =>
      if seen[node]? = some false then
        let seen := seen.setIfInBounds node true
        let ahead := (g.succs node).filter fun s => decide (seen[s]? = some false)
        .inr (seen, ahead.map .enter ++ .leave node :: rest, order)
      else .inr (seen, rest, order)

/-- Do all tasks. -/
noncomputable def doTasks (g : Graph) (seen : Array Bool) (stack : List Task) (order : List Nat) :
    Part (List Nat) :=
  PFun.fix (fun state => .some (taskStep g state)) (seen, stack, order)

/-- The nodes that a search with a stack lists from a start. -/
noncomputable def stackPostorder (g : Graph) (start : Nat) : Part (List Nat) :=
  if start < g.size then doTasks g (.replicate g.size false) [.enter start] [] else .some []

end RangeFlow.Graph
