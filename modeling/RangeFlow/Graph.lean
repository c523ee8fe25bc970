/-! # Directed graphs

A graph is a number of nodes and a list of edges between them. Edges may be repeated, and the order
of the edges is the order in which successors and predecessors are listed.
-/

namespace RangeFlow

/-- A finite directed graph on the nodes below `size`. -/
structure Graph where
  size : Nat
  edges : List (Nat × Nat)
  /-- Edges join nodes of the graph. -/
  inRange : ∀ e ∈ edges, e.1 < size ∧ e.2 < size

namespace Graph

/-- The graph of the edges of a list that join existing nodes. -/
def ofEdges (size : Nat) (edges : List (Nat × Nat)) : Graph where
  size
  edges := edges.filter fun e => decide (e.1 < size ∧ e.2 < size)
  inRange := fun _ h => of_decide_eq_true (List.mem_filter.mp h).2

/-- The targets of the edges that leave a node. -/
def succs (g : Graph) (node : Nat) : List Nat :=
  (g.edges.filter (·.1 == node)).map Prod.snd

/-- The sources of the edges that enter a node. -/
def preds (g : Graph) (node : Nat) : List Nat :=
  (g.edges.filter (·.2 == node)).map Prod.fst

/-- The graph with every edge turned round. -/
def reverse (g : Graph) : Graph where
  size := g.size
  edges := g.edges.map Prod.swap
  inRange := by
    intro e he
    obtain ⟨d, hd, rfl⟩ := List.mem_map.mp he
    exact (g.inRange d hd).symm

/-- The successors of all nodes. -/
def table (g : Graph) : Array (List Nat) := Array.ofFn fun node : Fin g.size => g.succs node

/-- The table has a place for every node. -/
@[simp] theorem size_table {g : Graph} : g.table.size = g.size := by simp [table]

/-- The table holds the successors of every node. -/
theorem table_getD {g : Graph} {node : Nat} (h : node < g.size) :
    g.table.getD node [] = g.succs node := by
  simp [table, Array.getD, h]

/-- There is an edge exactly to the successors. -/
theorem mem_succs {g : Graph} {u v : Nat} : v ∈ g.succs u ↔ (u, v) ∈ g.edges := by
  simp [succs]

/-- There is an edge exactly from the predecessors. -/
theorem mem_preds {g : Graph} {u v : Nat} : u ∈ g.preds v ↔ (u, v) ∈ g.edges := by
  simp [preds]

end Graph

end RangeFlow
