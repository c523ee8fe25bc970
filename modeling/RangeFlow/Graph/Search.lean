import RangeFlow.Graph

/-! # Depth-first search

One search serves all questions about reachability: it follows successors in their order, enters
no node twice, and lists nodes as it leaves them. Nodes that are marked as seen from the start are
not entered at all, so the search also answers what can be reached without them.
-/

namespace RangeFlow.Graph

/-- What is left to do at a node. -/
inductive Task where
  /-- Enter the node, unless it has been seen. -/
  | enter (node : Nat)
  /-- All successors are done: list the node. -/
  | leave (node : Nat)
  deriving Repr, DecidableEq

/-- Marks at the listed ones of the nodes below `size`. -/
def mark (size : Nat) (nodes : List Nat) : Array Bool :=
  nodes.foldl (fun marks node => marks.setIfInBounds node true) (Array.replicate size false)

/-- Further marks keep the earlier ones. -/
theorem getD_foldl_setIfInBounds {marks : Array Bool} {nodes : List Nat} {n : Nat} :
    (nodes.foldl (fun marks node => marks.setIfInBounds node true) marks).getD n false = true ↔
      n < marks.size ∧ (marks.getD n false = true ∨ n ∈ nodes) := by
  induction nodes generalizing marks with
  | nil =>
      by_cases h : n < marks.size <;> simp [Array.getD, h]
  | cons node rest ih =>
      rw [List.foldl_cons, ih, Array.size_setIfInBounds]
      by_cases h : n < marks.size
      · by_cases he : node = n
        · subst he
          simp [Array.getD, h]
        · have he' : ¬ n = node := fun e => he e.symm
          simp [Array.getD, h, he, he']
      · simp [h]

/-- The marked nodes are those of the list below `size`. -/
theorem mark_getD {size : Nat} {nodes : List Nat} {n : Nat} :
    (mark size nodes).getD n false = true ↔ n < size ∧ n ∈ nodes := by
  rw [mark, getD_foldl_setIfInBounds]
  by_cases h : n < size <;> simp [Array.getD, h]

/-- Marking a node that is not marked leaves fewer nodes without a mark. -/
theorem count_setIfInBounds_lt {seen : Array Bool} {node : Nat} (h : seen[node]? = some false) :
    (seen.setIfInBounds node true).count false < seen.count false := by
  obtain ⟨hlt, hnode⟩ := Array.getElem?_eq_some_iff.mp h
  have hpos : 0 < seen.count false := Array.count_pos_iff.mpr (hnode ▸ Array.getElem_mem hlt)
  have hset : seen.setIfInBounds node true = seen.set node true hlt := by
    simp [Array.setIfInBounds, hlt]
  rw [hset, Array.count_set, hnode, if_pos (by decide), if_neg (by decide)]
  omega

/-- Work off a stack of tasks, with a table of successors and a mark at every node that has been
    seen. The nodes listed so far come last. -/
def search (next : Array (List Nat)) (seen : Array Bool) (stack : List Task) (order : List Nat) :
    List Nat :=
  match stack with
  | [] => order.reverse
  | .leave node :: rest => search next seen rest (node :: order)
  | .enter node :: rest =>
      if seen[node]? = some false then
        search next (seen.setIfInBounds node true)
          ((next.getD node []).map .enter ++ .leave node :: rest) order
      else search next seen rest order
termination_by (seen.count false, stack.length)
decreasing_by
  · exact Prod.Lex.right _ (by simp)
  · next h => exact Prod.Lex.left _ _ (count_setIfInBounds_lt h)
  · exact Prod.Lex.right _ (by simp)

/-- The nodes that can be reached from some start without passing through a node to avoid, each
    after the nodes entered from it. -/
def searchAvoiding (next : Array (List Nat)) (avoid : List Nat) (starts : List Nat) : List Nat :=
  search next (mark next.size avoid) (starts.map .enter) []

/-- The nodes that can be reached from `start`, each after the nodes entered from it. -/
def postorder (g : Graph) (start : Nat) : List Nat := searchAvoiding g.table [] [start]

/-- The nodes that can be reached from `start`, the last one left first. -/
def reversePostorder (g : Graph) (start : Nat) : List Nat := (g.postorder start).reverse

end RangeFlow.Graph
