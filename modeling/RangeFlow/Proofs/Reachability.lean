import RangeFlow.Graph.Search

/-! # Reachability

A depth-first search lists exactly the nodes to which there is a way that avoids the marked nodes.
Ways can be joined, and cut at the last node of a given kind.
-/

namespace RangeFlow.Graph

/-- A way from one node to another through nodes that all satisfy a condition. -/
inductive Joined (next : Array (List Nat)) (free : Nat → Prop) : Nat → Nat → Prop where
  | refl {a : Nat} (ha : free a) : Joined next free a a
  | tail {a b c : Nat} (way : Joined next free a b) (step : c ∈ next.getD b []) (hc : free c) :
      Joined next free a c

namespace Joined

variable {next : Array (List Nat)} {free free' : Nat → Prop} {a b c : Nat}

theorem free_right (h : Joined next free a b) : free b := by
  cases h with
  | refl ha => exact ha
  | tail _ _ hc => exact hc

theorem free_left (h : Joined next free a b) : free a := by
  induction h with
  | refl ha => exact ha
  | tail _ _ _ ih => exact ih

theorem mono (h : Joined next free a b) (weaker : ∀ n, free n → free' n) :
    Joined next free' a b := by
  induction h with
  | refl ha => exact .refl (weaker _ ha)
  | tail _ step hc ih => exact .tail ih step (weaker _ hc)

theorem trans (first : Joined next free a b) (second : Joined next free b c) :
    Joined next free a c := by
  induction second with
  | refl => exact first
  | tail _ step hc ih => exact .tail ih step hc

theorem head (ha : free a) (step : b ∈ next.getD a []) (way : Joined next free b c) :
    Joined next free a c :=
  (Joined.tail (.refl ha) step way.free_left).trans way

/-- A way either avoids a node, or can be cut so that it starts at that node and does not come
    back. -/
theorem avoid_or_from (h : Joined next free a b) (node : Nat) :
    Joined next (fun n => free n ∧ n ≠ node) a b ∨ b = node ∨
      ∃ k ∈ next.getD node [], Joined next (fun n => free n ∧ n ≠ node) k b := by
  induction h with
  | refl ha =>
      by_cases same : a = node
      · exact .inr (.inl same)
      · exact .inl (.refl ⟨ha, same⟩)
  | @tail b c way step hc ih =>
      by_cases same : c = node
      · exact .inr (.inl same)
      · rcases ih with avoids | rfl | ⟨k, hk, avoids⟩
        · exact .inl (.tail avoids step ⟨hc, same⟩)
        · exact .inr (.inr ⟨c, step, .refl ⟨hc, same⟩⟩)
        · exact .inr (.inr ⟨k, hk, .tail avoids step ⟨hc, same⟩⟩)

end Joined

theorem getElem?_setIfInBounds_eq_false {seen : Array Bool} {node n : Nat} :
    (seen.setIfInBounds node true)[n]? = some false ↔ seen[n]? = some false ∧ n ≠ node := by
  rw [Array.getElem?_setIfInBounds]
  by_cases same : node = n
  · subst same
    by_cases inside : node < seen.size <;> simp [inside]
  · simp [same, Ne.symm same]

/-- The search lists what was listed before, what waits to be listed, and all nodes to which there
    is a way without marks from a node that waits to be entered. -/
theorem mem_search {next : Array (List Nat)} {seen : Array Bool} {stack : List Task}
    {order : List Nat} {n : Nat} :
    n ∈ search next seen stack order ↔ n ∈ order ∨ .leave n ∈ stack ∨
      ∃ m, .enter m ∈ stack ∧ Joined next (fun k => seen[k]? = some false) m n := by
  fun_induction search next seen stack order with
  | case1 seen order => simp
  | case2 seen order node rest ih =>
      rw [ih]
      simp only [List.mem_cons, Task.leave.injEq, reduceCtorEq, false_or]
      simp only [or_assoc, or_left_comm]
  | case3 seen order node rest fresh ih =>
      rw [ih]
      simp only [getElem?_setIfInBounds_eq_false, List.mem_append, List.mem_map, List.mem_cons,
        Task.leave.injEq, Task.enter.injEq, reduceCtorEq, false_or, and_false, exists_false,
        exists_eq_right]
      -- a way from a waiting node avoids the node that is entered, or starts again from it
      constructor
      · rintro (listed | (rfl | waits) | ⟨m, entered | waits, way⟩)
        · exact .inl listed
        · exact .inr (.inr ⟨n, .inl rfl, .refl fresh⟩)
        · exact .inr (.inl waits)
        · exact .inr (.inr ⟨node, .inl rfl, .head fresh entered (way.mono fun _ h => h.1)⟩)
        · exact .inr (.inr ⟨m, .inr waits, way.mono fun _ h => h.1⟩)
      · rintro (listed | waits | ⟨m, rfl | waits, way⟩)
        · exact .inl listed
        · exact .inr (.inl (.inr waits))
        · rcases way.avoid_or_from m with avoids | rfl | ⟨k, hk, avoids⟩
          · exact absurd rfl avoids.free_left.2
          · exact .inr (.inl (.inl rfl))
          · exact .inr (.inr ⟨k, .inl hk, avoids⟩)
        · rcases way.avoid_or_from node with avoids | rfl | ⟨k, hk, avoids⟩
          · exact .inr (.inr ⟨m, .inr waits, avoids⟩)
          · exact .inr (.inl (.inl rfl))
          · exact .inr (.inr ⟨k, .inl hk, avoids⟩)
  | case4 seen order node rest marked ih =>
      rw [ih]
      simp only [List.mem_cons, Task.enter.injEq, reduceCtorEq, false_or]
      constructor
      · rintro (listed | waits | ⟨m, waits, way⟩)
        · exact .inl listed
        · exact .inr (.inl waits)
        · exact .inr (.inr ⟨m, .inr waits, way⟩)
      · rintro (listed | waits | ⟨m, rfl | waits, way⟩)
        · exact .inl listed
        · exact .inr (.inl waits)
        · exact absurd way.free_left marked
        · exact .inr (.inr ⟨m, waits, way⟩)

theorem mark_eq_false {size : Nat} {nodes : List Nat} {n : Nat} :
    (mark size nodes)[n]? = some false ↔ n < size ∧ n ∉ nodes := by
  have bound : (mark size nodes).size = size := by
    unfold mark
    have keeps : ∀ marks : Array Bool,
        (nodes.foldl (fun marks node => marks.setIfInBounds node true) marks).size = marks.size := by
      induction nodes with
      | nil => intro marks; rfl
      | cons node rest ih => intro marks; rw [List.foldl_cons, ih, Array.size_setIfInBounds]
    rw [keeps, Array.size_replicate]
  have marked : (mark size nodes).getD n false = true ↔ n < size ∧ n ∈ nodes := mark_getD
  by_cases inside : n < size
  · have here : (mark size nodes)[n]? = some ((mark size nodes).getD n false) := by
      rw [Array.getD_eq_getD_getElem?, Array.getElem?_eq_getElem (bound.symm ▸ inside)]
      rfl
    rw [here]
    simp only [Option.some.injEq, inside, true_and] at marked ⊢
    rw [← marked, Bool.not_eq_true]
  · simp [inside, Array.getElem?_eq_none (bound.symm ▸ Nat.le_of_not_lt inside)]

theorem mem_searchAvoiding {next : Array (List Nat)} {avoid starts : List Nat} {n : Nat} :
    n ∈ searchAvoiding next avoid starts ↔
      ∃ m ∈ starts, Joined next (fun k => k < next.size ∧ k ∉ avoid) m n := by
  rw [searchAvoiding, mem_search]
  simp [mark_eq_false]

/-- There is a way through the graph that avoids some nodes. -/
def Way (g : Graph) (avoid : List Nat) : Nat → Nat → Prop :=
  Joined g.table fun n => n < g.size ∧ n ∉ avoid

namespace Way

variable {g : Graph} {avoid avoid' : List Nat} {a b c : Nat}

theorem refl (inside : a < g.size) (free : a ∉ avoid) : g.Way avoid a a := Joined.refl ⟨inside, free⟩

theorem tail (way : g.Way avoid a b) (edge : (b, c) ∈ g.edges) (free : c ∉ avoid) :
    g.Way avoid a c := by
  refine Joined.tail way ?_ ⟨(g.inRange _ edge).2, free⟩
  rw [table_getD (g.inRange _ edge).1]
  exact mem_succs.mpr edge

theorem trans (first : g.Way avoid a b) (second : g.Way avoid b c) : g.Way avoid a c :=
  Joined.trans first second

theorem head (edge : (a, b) ∈ g.edges) (free : a ∉ avoid) (way : g.Way avoid b c) :
    g.Way avoid a c :=
  ((refl (g.inRange _ edge).1 free).tail edge way.free_left.2).trans way

theorem mono (way : g.Way avoid a b) (sub : ∀ n ∈ avoid', n ∈ avoid) : g.Way avoid' a b :=
  Joined.mono way fun n h => ⟨h.1, fun member => h.2 (sub n member)⟩

theorem lt_size (way : g.Way avoid a b) : b < g.size := way.free_right.1

theorem not_mem (way : g.Way avoid a b) : b ∉ avoid := way.free_right.2

/-- Induction along a way, edge by edge. -/
theorem rec_edges {motive : Nat → Prop} (way : g.Way avoid a b)
    (start : a < g.size → a ∉ avoid → motive a)
    (step : ∀ u v, g.Way avoid a u → motive u → (u, v) ∈ g.edges → v ∉ avoid → motive v) :
    motive b := by
  unfold Way at way
  induction way with
  | refl ha => exact start ha.1 ha.2
  | @tail u v way edge hc ih =>
      refine step u v way ih ?_ hc.2
      rw [table_getD way.free_right.1] at edge
      exact mem_succs.mp edge

/-- A way that cannot avoid a node leads to it. -/
theorem to_avoided (way : g.Way avoid a b) {node : Nat} (needed : ¬ g.Way [node] a b) :
    g.Way avoid a node := by
  have either : g.Way [node] a b ∨ g.Way avoid a node := by
    refine way.rec_edges (motive := fun n => g.Way [node] a n ∨ g.Way avoid a node) ?_ ?_
    · intro inside free
      by_cases same : a = node
      · exact .inr (same ▸ .refl inside free)
      · exact .inl (.refl inside (by simpa using same))
    · intro u v before ih edge free
      by_cases same : v = node
      · exact .inr (same ▸ before.tail edge free)
      · exact ih.imp (fun avoids => avoids.tail edge (by simpa using same)) id
  exact either.resolve_left needed

/-- A way that cannot avoid a node leads on from it. -/
theorem from_avoided (way : g.Way avoid a b) {node : Nat} (needed : ¬ g.Way [node] a b)
    (free : node ∉ avoid) : g.Way avoid node b := by
  have either : g.Way [node] a b ∨ g.Way avoid node b := by
    refine way.rec_edges (motive := fun n => g.Way [node] a n ∨ g.Way avoid node n) ?_ ?_
    · intro inside _
      by_cases same : a = node
      · exact .inr (same ▸ .refl inside (same ▸ free))
      · exact .inl (.refl inside (by simpa using same))
    · intro u v _ ih edge freeV
      by_cases same : v = node
      · exact .inr (same ▸ .refl (g.inRange _ edge).2 freeV)
      · exact ih.imp (·.tail edge (by simpa using same)) (·.tail edge freeV)
  exact either.resolve_left needed

/-- A way avoids two nodes, or leads to the one before it comes to the other. -/
theorem first_of_two (way : g.Way [] a b) {p q : Nat} (distinct : p ≠ q) :
    g.Way [p, q] a b ∨ g.Way [p] a q ∨ g.Way [q] a p := by
  refine way.rec_edges (motive := fun n => g.Way [p, q] a n ∨ g.Way [p] a q ∨ g.Way [q] a p) ?_ ?_
  · intro inside _
    by_cases first : a = p
    · subst first
      exact .inr (.inr (.refl inside (by simpa using distinct)))
    · by_cases second : a = q
      · subst second
        exact .inr (.inl (.refl inside (by simpa using first)))
      · exact .inl (.refl inside (by simp [first, second]))
  · intro u v _ ih edge _
    rcases ih with both | found
    · by_cases first : v = p
      · subst first
        exact .inr (.inr ((both.mono (by simp)).tail edge (by simpa using distinct)))
      · by_cases second : v = q
        · subst second
          exact .inr (.inl ((both.mono (by simp)).tail edge (by simpa using first)))
        · exact .inl (both.tail edge (by simp [first, second]))
    · exact .inr found

/-- A way avoids two nodes, or can be cut so that it starts at the one and avoids the other. -/
theorem last_of_two (way : g.Way [] a b) {p q : Nat} (distinct : p ≠ q) :
    g.Way [p, q] a b ∨ g.Way [q] p b ∨ g.Way [p] q b := by
  have either : ∀ v, v < g.size →
      (v ≠ p → v ≠ q → g.Way [p, q] a v ∨ g.Way [q] p v ∨ g.Way [p] q v) →
      g.Way [p, q] a v ∨ g.Way [q] p v ∨ g.Way [p] q v := by
    intro v inside other
    by_cases first : v = p
    · subst first
      exact .inr (.inl (.refl inside (by simpa using distinct)))
    · by_cases second : v = q
      · subst second
        exact .inr (.inr (.refl inside (by simpa using distinct.symm)))
      · exact other first second
  refine way.rec_edges (motive := fun n => g.Way [p, q] a n ∨ g.Way [q] p n ∨ g.Way [p] q n) ?_ ?_
  · intro inside _
    exact either a inside fun first second => .inl (.refl inside (by simp [first, second]))
  · intro u v _ ih edge _
    refine either v (g.inRange _ edge).2 fun first second => ?_
    rcases ih with both | fromP | fromQ
    · exact .inl (both.tail edge (by simp [first, second]))
    · exact .inr (.inl (fromP.tail edge (by simpa using second)))
    · exact .inr (.inr (fromQ.tail edge (by simpa using first)))

end Way

section Reverse

variable {g : Graph} {avoid : List Nat} {a b : Nat}

theorem mem_reverse_edges : (a, b) ∈ g.reverse.edges ↔ (b, a) ∈ g.edges := by
  rw [reverse, List.mem_map]
  constructor
  · rintro ⟨_, edge, same⟩
    cases same
    exact edge
  · exact fun edge => ⟨(b, a), edge, rfl⟩

theorem Way.reverse (way : g.Way avoid a b) : g.reverse.Way avoid b a :=
  way.rec_edges (motive := fun n => g.reverse.Way avoid n a) (Way.refl (g := g.reverse))
    fun _ _ _ back edge free => back.head (mem_reverse_edges.mpr edge) free

/-- The ways through the graph with its edges turned round are the ways back. -/
theorem way_reverse : g.reverse.Way avoid a b ↔ g.Way avoid b a := by
  have twice : g.reverse.reverse = g := by
    cases g
    simp [Graph.reverse]
  exact ⟨fun way => twice ▸ way.reverse, Way.reverse⟩

end Reverse

theorem mem_postorder {g : Graph} {start n : Nat} : n ∈ g.postorder start ↔ g.Way [] start n := by
  simp [postorder, mem_searchAvoiding, Way]

end RangeFlow.Graph
