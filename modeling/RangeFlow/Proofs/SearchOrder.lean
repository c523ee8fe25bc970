import Mathlib.Data.List.Nodup
import RangeFlow.Proofs.Reachability

/-! # The order of a search

A depth-first search lists every node once. A node that it does not start from is entered from one
of its predecessors, which is left later: in reverse postorder, some predecessor comes before it.
-/

namespace RangeFlow.Graph

variable {next : Array (List Nat)} {seen : Array Bool} {stack : List Task} {starts : List Nat}
  {n : Nat}

/-- The node that a task is about. -/
def Task.node : Task → Nat
  | .enter node => node
  | .leave node => node

/-- The tasks on the stack are about starts, or successors of nodes that are left further down. -/
def Rooted (next : Array (List Nat)) (starts : List Nat) : List Task → Prop
  | [] => True
  | task :: rest =>
      (task.node ∈ starts ∨ ∃ m, .leave m ∈ rest ∧ task.node ∈ next.getD m []) ∧
        Rooted next starts rest

/-- The listed nodes are starts, or successors of nodes further down the list. -/
def Grown (next : Array (List Nat)) (starts : List Nat) : List Nat → Prop
  | [] => True
  | node :: rest =>
      (node ∈ starts ∨ ∃ m ∈ rest, node ∈ next.getD m []) ∧ Grown next starts rest

theorem Grown.of_append {first rest : List Nat} (h : Grown next starts (first ++ rest)) :
    Grown next starts rest := by
  induction first with
  | nil => exact h
  | cons node first ih => exact ih h.2

/-- Induction over the steps of a search. -/
theorem search_steps (next : Array (List Nat)) {motive : Array Bool → List Task → Prop}
    (done : ∀ seen, motive seen [])
    (leave : ∀ seen node rest, motive seen rest → motive seen (.leave node :: rest))
    (enter : ∀ seen node rest, seen[node]? = some false →
      motive (seen.setIfInBounds node true)
        ((next.getD node []).map .enter ++ .leave node :: rest) →
      motive seen (.enter node :: rest))
    (skip : ∀ seen node rest, ¬ seen[node]? = some false → motive seen rest →
      motive seen (.enter node :: rest)) (seen : Array Bool) (stack : List Task) :
    motive seen stack :=
  search.induct next (motive := fun seen stack _ => motive seen stack) (fun seen _ => done seen)
    (fun seen _ => leave seen) (fun seen _ => enter seen) (fun seen _ => skip seen) seen stack []

/-- What has been listed stays in front. -/
theorem search_eq_append (order : List Nat) :
    search next seen stack order = order.reverse ++ search next seen stack [] := by
  induction seen, stack using search_steps next generalizing order with
  | done seen => simp [search]
  | leave seen node rest ih =>
      rw [search, search, ih, ih [node], List.reverse_cons, List.append_assoc]
      rfl
  | enter seen node rest fresh ih => rw [search, if_pos fresh, ih, search, if_pos fresh]
  | skip seen node rest marked ih => rw [search, if_neg marked, ih, search, if_neg marked]

/-- A node that is left comes before everything that is left later. -/
theorem search_leave (node : Nat) (rest : List Task) :
    search next seen (.leave node :: rest) [] = node :: search next seen rest [] := by
  rw [search, search_eq_append]
  rfl

/-- Entering a node keeps the stack rooted. -/
theorem Rooted.enter {node : Nat} {rest : List Task}
    (h : Rooted next starts (.enter node :: rest)) :
    Rooted next starts ((next.getD node []).map .enter ++ .leave node :: rest) := by
  have each : ∀ targets : List Nat, (∀ t ∈ targets, t ∈ next.getD node []) →
      Rooted next starts (targets.map .enter ++ .leave node :: rest) := by
    intro targets sub
    induction targets with
    | nil => exact h
    | cons t targets ih =>
        refine ⟨.inr ⟨node, by simp, sub t (List.mem_cons_self ..)⟩, ih fun u member => ?_⟩
        exact sub u (List.mem_cons_of_mem _ member)
  exact each _ fun _ => id

theorem grown_search (h : Rooted next starts stack) :
    Grown next starts (search next seen stack []) := by
  induction seen, stack using search_steps next with
  | done seen =>
      rw [search]
      trivial
  | leave seen node rest ih =>
      rw [search_leave]
      refine ⟨h.1.imp id ?_, ih h.2⟩
      rintro ⟨m, waits, edge⟩
      exact ⟨m, mem_search.mpr (.inr (.inl waits)), edge⟩
  | enter seen node rest fresh ih =>
      rw [search, if_pos fresh]
      exact ih h.enter
  | skip seen node rest marked ih =>
      rw [search, if_neg marked]
      exact ih h.2

/-- The nodes that wait to be left. -/
def leaving (stack : List Task) : List Nat :=
  stack.filterMap fun
    | .leave node => some node
    | .enter _ => none

theorem mem_leaving : n ∈ leaving stack ↔ .leave n ∈ stack := by
  unfold leaving
  rw [List.mem_filterMap]
  constructor
  · rintro ⟨task, member, same⟩
    cases task with
    | enter => cases same
    | leave node =>
        cases same
        exact member
  · exact fun member => ⟨_, member, rfl⟩

/-- No node is listed twice, if the nodes that wait to be left are different and have been seen. -/
theorem nodup_search (nodup : (leaving stack).Nodup)
    (marked : ∀ node ∈ leaving stack, ¬ seen[node]? = some false) :
    (search next seen stack []).Nodup := by
  induction seen, stack using search_steps next with
  | done seen =>
      rw [search]
      exact List.nodup_nil
  | leave seen node rest ih =>
      obtain ⟨new, nodup⟩ := List.nodup_cons.mp (show (node :: leaving rest).Nodup from nodup)
      rw [search_leave, List.nodup_cons]
      refine ⟨fun again => ?_, ih nodup fun m member => marked m (List.mem_cons_of_mem _ member)⟩
      rcases mem_search.mp again with listed | waits | ⟨m, -, way⟩
      · cases listed
      · exact new (mem_leaving.mpr waits)
      · exact marked node (List.mem_cons_self ..) way.free_right
  | enter seen node rest fresh ih =>
      rw [search, if_pos fresh]
      have waiting : leaving ((next.getD node []).map .enter ++ .leave node :: rest) =
          node :: leaving rest := by
        simp [leaving, List.filterMap_map]
      refine ih ?_ ?_
      · rw [waiting, List.nodup_cons]
        exact ⟨fun waits => marked node waits fresh, nodup⟩
      · rw [waiting]
        intro m member unseen
        obtain ⟨unseen, other⟩ := getElem?_setIfInBounds_eq_false.mp unseen
        rcases List.mem_cons.mp member with same | waits
        · exact other same
        · exact marked m waits unseen
  | skip seen node rest again ih =>
      rw [search, if_neg again]
      exact ih nodup marked

/-- What an order of nodes has to do with the ways from the entry: it lists the nodes that can be
    reached, each once, and some predecessor of a node before the node. -/
structure Follows (g : Graph) (entry : Nat) (order : List Nat) : Prop where
  mem_iff : ∀ n, n ∈ order ↔ g.Way [] entry n
  nodup : order.Nodup
  earlier : ∀ first n rest, order = first ++ n :: rest →
    n = entry ∨ ∃ m ∈ first, (m, n) ∈ g.edges

theorem follows_reversePostorder (g : Graph) (entry : Nat) :
    g.Follows entry (g.reversePostorder entry) where
  mem_iff := fun n => by rw [reversePostorder, List.mem_reverse, mem_postorder]
  nodup := by
    rw [reversePostorder, List.nodup_reverse]
    exact nodup_search List.nodup_nil nofun
  earlier := by
    intro first n rest split
    have listed : g.postorder entry = rest.reverse ++ n :: first.reverse := by
      rw [← List.reverse_reverse (g.postorder entry), ← reversePostorder, split]
      simp
    have grown : Grown g.table [entry] (g.postorder entry) :=
      grown_search ⟨.inl (List.mem_singleton.mpr rfl), trivial⟩
    rw [listed] at grown
    rcases grown.of_append.1 with start | ⟨m, before, edge⟩
    · exact .inl (List.mem_singleton.mp start)
    · have before := List.mem_reverse.mp before
      have reached : g.Way [] entry m := by
        rw [← mem_postorder, listed]
        simp [before]
      rw [table_getD reached.lt_size] at edge
      exact .inr ⟨m, before, mem_succs.mp edge⟩

/-- In a list without repetitions, the elements before another are those with a smaller index. -/
theorem mem_first_iff {order first rest : List Nat} {m : Nat} (nodup : order.Nodup)
    (split : order = first ++ n :: rest) : m ∈ first ↔ order.idxOf m < order.idxOf n := by
  subst split
  have new : n ∉ first := fun again =>
    (List.nodup_append.mp nodup).2.2 n again n (List.mem_cons_self ..) rfl
  rw [List.idxOf_append_of_notMem new, List.idxOf_cons_self, Nat.add_zero]
  by_cases before : m ∈ first
  · rw [List.idxOf_append_of_mem before]
    exact iff_of_true before (List.idxOf_lt_length_iff.mpr before)
  · rw [List.idxOf_append_of_notMem before]
    exact iff_of_false before (by omega)

namespace Follows

variable {g : Graph} {entry : Nat} {order : List Nat}

/-- A node other than the entry has a predecessor that comes before it. -/
theorem exists_earlier (h : g.Follows entry order) (member : n ∈ order) (other : n ≠ entry) :
    ∃ m ∈ order, (m, n) ∈ g.edges ∧ order.idxOf m < order.idxOf n := by
  obtain ⟨first, rest, split⟩ := List.append_of_mem member
  obtain ⟨m, before, edge⟩ := (h.earlier first n rest split).resolve_left other
  refine ⟨m, ?_, edge, (mem_first_iff h.nodup split).mp before⟩
  rw [split]
  exact List.mem_append_left _ before

/-- What comes after the entry is another node. -/
theorem ne_entry {first rest : List Nat} (h : g.Follows entry order)
    (split : order = first ++ n :: rest) (start : entry ∈ first) : n ≠ entry := by
  rintro rfl
  exact Nat.lt_irrefl _ ((mem_first_iff h.nodup split).mp start)

/-- The entry comes first. -/
theorem eq_cons (h : g.Follows entry order) (some : order ≠ []) : order = entry :: order.tail := by
  obtain ⟨n, rest, rfl⟩ := List.exists_cons_of_ne_nil some
  rcases h.earlier [] n rest rfl with rfl | ⟨_, none, -⟩
  · rfl
  · cases none

end Follows

end RangeFlow.Graph
