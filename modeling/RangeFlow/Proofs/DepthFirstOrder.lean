import RangeFlow.Graph.DepthFirst
import RangeFlow.Proofs.ImmediateDominators

/-! # Depth-first orders

The stack lists the nodes in the order of the recursion, whether or not it takes successors that
have been seen. An edge to a node that is not listed before its source leads back: there is a path
from its target to its source.
-/

namespace RangeFlow.Graph

variable {g : Graph} {marked : Array Bool} {seen nodes rest : List Nat} {node start u v n : Nat}

/-- The nodes without a mark are those of the graph that have not been seen. -/
def Marks (g : Graph) (marked : Array Bool) (seen : List Nat) : Prop :=
  ∀ n, marked[n]? = some false ↔ n < g.size ∧ n ∉ seen

theorem Marks.congr {seen' : List Nat} (h : Marks g marked seen)
    (same : ∀ n, n ∈ seen ↔ n ∈ seen') : Marks g marked seen' := by
  intro n
  rw [h n, same n]

theorem Marks.set (h : Marks g marked seen) (node : Nat) :
    Marks g (marked.setIfInBounds node true) (node :: seen) := by
  intro n
  rw [getElem?_setIfInBounds_eq_false, h n, List.mem_cons, not_or, and_assoc]
  exact and_congr_right fun _ => and_comm

theorem marks_mark (g : Graph) : Marks g (mark g.size []) [] := fun _ => mark_eq_false

section Loop

variable {β : Type}

/-- A loop over a stack of tasks. It lists a node that is left. A node that is entered the first
    time is to be left after some of its successors have been entered, among them all that have not
    been seen. -/
structure WorksOff (g : Graph) (kept : Array Bool → Nat → Bool)
    (run : Array Bool → List Task → List Nat → β) : Prop where
  keeps : ∀ marked n, marked[n]? = some false → kept marked n = true
  leave : ∀ marked node stack order,
    run marked (.leave node :: stack) order = run marked stack (node :: order)
  enter : ∀ marked node stack order, node < g.size → marked[node]? = some false →
    run marked (.enter node :: stack) order =
      run (marked.setIfInBounds node true)
        (((g.succs node).filter (kept (marked.setIfInBounds node true))).map .enter ++
          .leave node :: stack) order
  skip : ∀ marked node stack order, ¬ marked[node]? = some false →
    run marked (.enter node :: stack) order = run marked stack order

/-- A loop over tasks works off the tasks to enter some nodes as the recursion visits these nodes.
    Which nodes that have been seen are among them makes no difference. -/
theorem WorksOff.run_enter {kept : Array Bool → Nat → Bool}
    {run : Array Bool → List Task → List Nat → β} (h : g.WorksOff kept run)
    (marks : Marks g marked seen) (nodes : List Nat) (keep : Nat → Bool)
    (keeps : ∀ n, marked[n]? = some false → keep n = true) (stack : List Task)
    (order : List Nat) :
    ∃ marked', Marks g marked' (g.visitEach seen nodes ++ seen) ∧
      run marked ((nodes.filter keep).map .enter ++ stack) order =
        run marked' stack ((g.visitEach seen nodes).reverse ++ order) := by
  fun_induction visitEach g seen nodes generalizing marked keep stack order with
  | case1 seen => exact ⟨marked, marks, rfl⟩
  | @case2 seen node rest fresh below ihBelow ihRest =>
      have unmarked : marked[node]? = some false := (marks node).mpr fresh
      rw [List.filter_cons_of_pos (keeps node unmarked), List.map_cons, List.cons_append,
        h.enter _ _ _ _ fresh.1 unmarked]
      obtain ⟨inner, marksInner, runInner⟩ := ihBelow (marks.set node) _ (h.keeps _)
        (.leave node :: ((rest.filter keep).map .enter ++ stack)) order
      have keepsInner : ∀ n, inner[n]? = some false → keep n = true := by
        intro n free
        obtain ⟨inside, new⟩ := (marksInner n).mp free
        refine keeps n ((marks n).mpr ⟨inside, fun old => new ?_⟩)
        exact List.mem_append_right _ (List.mem_cons_of_mem _ old)
      obtain ⟨outer, marksOuter, runOuter⟩ := ihRest marksInner keep keepsInner stack
        (node :: (below.reverse ++ order))
      refine ⟨outer, marksOuter.congr fun n => ?_, ?_⟩
      · simp only [List.mem_append, List.mem_cons]
        tauto
      · rw [runInner, h.leave, runOuter, List.reverse_append, List.reverse_cons, List.append_assoc,
          List.append_assoc]
        rfl
  | case3 seen node rest known ih =>
      by_cases taken : keep node = true
      · rw [List.filter_cons_of_pos taken, List.map_cons, List.cons_append,
          h.skip _ _ _ _ fun unmarked => known ((marks node).mp unmarked)]
        exact ih marks keep keeps stack order
      · rw [List.filter_cons_of_neg taken]
        exact ih marks keep keeps stack order

theorem worksOff_search (g : Graph) : g.WorksOff (fun _ _ => true) (search g.table) where
  keeps := fun _ _ _ => rfl
  leave := fun _ _ _ _ => by rw [search]
  enter := by
    intro marked node stack order inside unmarked
    rw [search, if_pos unmarked, table_getD inside, List.filter_true]
  skip := by
    intro marked node stack order known
    rw [search, if_neg known]

theorem worksOff_doTasks (g : Graph) :
    g.WorksOff (fun marked n => decide (marked[n]? = some false)) (doTasks g) where
  keeps := fun _ _ => decide_eq_true
  leave := fun _ _ _ _ => PFun.fix_fwd_eq (Part.mem_some_iff.mpr rfl)
  enter := by
    intro marked node stack order _ unmarked
    apply PFun.fix_fwd_eq
    rw [Part.mem_some_iff, taskStep, if_pos unmarked]
  skip := by
    intro marked node stack order known
    apply PFun.fix_fwd_eq
    rw [Part.mem_some_iff, taskStep, if_neg known]

theorem doTasks_nil (marked : Array Bool) (order : List Nat) :
    doTasks g marked [] order = .some order.reverse :=
  Part.eq_some_iff.mpr (PFun.fix_stop (Part.mem_some_iff.mpr rfl))

/-- From no marks on, a loop over tasks works off the task to enter a node. -/
theorem WorksOff.run_start {kept : Array Bool → Nat → Bool}
    {run : Array Bool → List Task → List Nat → β} (h : g.WorksOff kept run) (start : Nat) :
    ∃ marked, run (mark g.size []) [.enter start] [] =
      run marked [] (g.recursivePostorder start).reverse := by
  obtain ⟨marked, -, works⟩ :=
    h.run_enter (marks_mark g) [start] (fun _ => true) (fun _ _ => rfl) [] []
  rw [List.filter_true, List.append_nil, List.append_nil] at works
  exact ⟨marked, works⟩

theorem postorder_eq (g : Graph) (start : Nat) :
    g.postorder start = g.recursivePostorder start := by
  obtain ⟨marked, works⟩ := (worksOff_search g).run_start start
  rw [postorder, searchAvoiding, size_table]
  exact works.trans (by rw [search, List.reverse_reverse])

theorem stackPostorder_eq (g : Graph) (start : Nat) :
    g.stackPostorder start = .some (g.recursivePostorder start) := by
  rw [stackPostorder]
  split
  · obtain ⟨marked, works⟩ := (worksOff_doTasks g).run_start start
    exact works.trans (by rw [doTasks_nil, List.reverse_reverse])
  · next outside =>
      rw [recursivePostorder, visitEach, if_neg fun fresh => outside fresh.1, visitEach]

end Loop

/-- What is visited can be reached from the nodes to visit. -/
theorem way_of_mem_visitEach (member : n ∈ g.visitEach seen nodes) :
    ∃ m ∈ nodes, g.Way [] m n := by
  fun_induction visitEach g seen nodes with
  | case1 => cases member
  | case2 seen node rest fresh below ihBelow ihRest =>
      rcases List.mem_append.mp member with inner | later
      · obtain ⟨m, succ, way⟩ := ihBelow inner
        exact ⟨node, List.mem_cons_self .., way.head (mem_succs.mp succ) List.not_mem_nil⟩
      · rcases List.mem_cons.mp later with rfl | later
        · exact ⟨n, List.mem_cons_self .., .refl fresh.1 List.not_mem_nil⟩
        · obtain ⟨m, waits, way⟩ := ihRest later
          exact ⟨m, List.mem_cons_of_mem _ waits, way⟩
  | case3 seen node rest known ih =>
      obtain ⟨m, waits, way⟩ := ih member
      exact ⟨m, List.mem_cons_of_mem _ waits, way⟩

/-- All nodes to visit have been seen in the end. -/
theorem mem_visitEach_append (member : n ∈ nodes) (inside : n < g.size) :
    n ∈ g.visitEach seen nodes ++ seen := by
  fun_induction visitEach g seen nodes with
  | case1 => cases member
  | case2 seen node rest fresh below ihBelow ihRest =>
      rcases List.mem_cons.mp member with rfl | member
      · simp
      · have := ihRest member
        simp only [List.mem_append, List.mem_cons] at this ⊢
        tauto
  | case3 seen node rest known ih =>
      rcases List.mem_cons.mp member with rfl | member
      · exact List.mem_append_right _ (Decidable.not_not.mp fun new => known ⟨inside, new⟩)
      · exact ih member

/-- An element of a list with a node in it stands before the node, or is the node, or stands after
    it. -/
theorem split_append_cons {below after first later : List Nat}
    (split : below ++ node :: after = first ++ u :: later) :
    (∃ mid, below = first ++ u :: mid) ∨ (u = node ∧ first = below) ∨
      ∃ mid, first = below ++ node :: mid ∧ after = mid ++ u :: later := by
  rcases List.append_eq_append_iff.mp split with ⟨mid, rfl, tail⟩ | ⟨mid, rfl, tail⟩
  · cases mid with
    | nil => exact .inr (.inl ⟨(List.cons.inj tail).1.symm, List.append_nil below⟩)
    | cons m mid =>
        rw [List.cons_append, List.cons.injEq] at tail
        obtain ⟨rfl, after⟩ := tail
        exact .inr (.inr ⟨mid, rfl, after⟩)
  · cases mid with
    | nil => exact .inr (.inl ⟨(List.cons.inj tail).1, (List.append_nil first).symm⟩)
    | cons m mid =>
        rw [List.cons_append, List.cons.injEq] at tail
        obtain ⟨rfl, -⟩ := tail
        exact .inl ⟨mid, rfl⟩

/-- When a node is listed, its successors have been listed, or had been seen from the start, or
    there is a way back from them. -/
theorem way_back_of_visitEach {first later : List Nat}
    (split : g.visitEach seen nodes = first ++ u :: later) (edge : (u, v) ∈ g.edges) :
    v ∈ seen ∨ v ∈ first ∨ g.Way [] v u := by
  fun_induction visitEach g seen nodes generalizing first later with
  | case1 => simp at split
  | @case2 seen node rest fresh below ihBelow ihRest =>
      rcases split_append_cons split with ⟨mid, inner⟩ | ⟨rfl, rfl⟩ | ⟨mid, rfl, after⟩
      · rcases ihBelow inner with known | before | back
        · rcases List.mem_cons.mp known with rfl | known
          · -- an edge back to a node whose successors are being visited
            have listed : u ∈ below := by
              rw [inner]
              simp
            obtain ⟨m, succ, way⟩ := way_of_mem_visitEach listed
            exact .inr (.inr (way.head (mem_succs.mp succ) List.not_mem_nil))
          · exact .inl known
        · exact .inr (.inl before)
        · exact .inr (.inr back)
      · have visited : v ∈ below ++ u :: seen :=
          mem_visitEach_append (mem_succs.mpr edge) (g.inRange _ edge).2
        rcases List.mem_append.mp visited with before | known
        · exact .inr (.inl before)
        · rcases List.mem_cons.mp known with rfl | known
          · exact .inr (.inr (.refl fresh.1 List.not_mem_nil))
          · exact .inl known
      · rcases ihRest after with known | before | back
        · simp only [List.mem_append, List.mem_cons] at known ⊢
          tauto
        · exact .inr (.inl (List.mem_append_right _ (List.mem_cons_of_mem _ before)))
        · exact .inr (.inr back)
  | case3 seen node rest known ih => exact ih split

/-- The recursion lists its start last. -/
theorem getLast?_recursivePostorder (g : Graph) (start : Nat) :
    (g.recursivePostorder start).getLast? = if start < g.size then some start else none := by
  rw [recursivePostorder, visitEach, visitEach]
  by_cases inside : start < g.size
  · rw [if_pos ⟨inside, List.not_mem_nil⟩, if_pos inside]
    simp [visitEach]
  · rw [if_neg fun fresh => inside fresh.1, if_neg inside]
    rfl

/-- In a list without repetitions, what comes first comes last when the list is reversed. -/
theorem idxOf_reverse_lt {order first later : List Nat} (nodup : order.Nodup)
    (split : order = first ++ u :: later) (before : v ∈ first) :
    order.reverse.idxOf u < order.reverse.idxOf v := by
  obtain ⟨front, mid, rfl⟩ := List.append_of_mem before
  have reversed : order.reverse = (later.reverse ++ u :: mid.reverse) ++ v :: front.reverse := by
    simp [split]
  refine (mem_first_iff (List.nodup_reverse.mpr nodup) reversed).mp ?_
  simp

/-- What the depth-first order of nodes and its reverse have to do with the paths from a start. -/
structure DepthFirst (g : Graph) (start : Nat) (order reversed : List Nat) : Prop where
  /-- The nodes that can be reached are listed, and no others. -/
  mem_iff : ∀ n, n ∈ order ↔ g.Reaches start n
  nodup : order.Nodup
  /-- The start comes last. From a start that is not in the graph nothing is listed. -/
  getLast? : order.getLast? = if start < g.size then some start else none
  /-- The order is that of the recursion. -/
  recursive : order = g.recursivePostorder start
  reverse : reversed = order.reverse
  /-- From a target that does not come before its source there is a path back to it. -/
  back : ∀ u v, (u, v) ∈ g.edges → u ∈ order → v ∈ order →
    ¬ order.idxOf v < order.idxOf u → g.Reaches v u
  /-- In the reversed order, there is one from a target that its source does not come before. -/
  back_reverse : ∀ u v, (u, v) ∈ g.edges → u ∈ reversed → v ∈ reversed →
    ¬ reversed.idxOf u < reversed.idxOf v → g.Reaches v u

/-- For every graph and every start the stack is worked off, in the order of the recursion. The
    order lists every node that can be reached once, and an edge leads to a node that is not listed
    before its source only if it closes a cycle. -/
theorem postorder_depthFirst (g : Graph) (start : Nat) :
    g.stackPostorder start = .some (g.postorder start) ∧
      g.DepthFirst start (g.postorder start) (g.reversePostorder start) := by
  have nodup : (g.postorder start).Nodup := nodup_search List.nodup_nil nofun
  have back : ∀ {u v first later}, (u, v) ∈ g.edges →
      g.postorder start = first ++ u :: later → v ∉ first → g.Reaches v u := by
    intro u v first later edge split after
    rw [postorder_eq] at split
    rcases way_back_of_visitEach split edge with known | before | way
    · cases known
    · exact absurd before after
    · exact reaches_iff.mpr way
  refine ⟨(stackPostorder_eq g start).trans (congrArg _ (postorder_eq g start).symm), ?_⟩
  exact
    { mem_iff := fun n => mem_postorder.trans reaches_iff.symm
      nodup
      getLast? := postorder_eq g start ▸ getLast?_recursivePostorder g start
      recursive := postorder_eq g start
      reverse := rfl
      back := by
        intro u v edge listed _ later
        obtain ⟨first, rest, split⟩ := List.append_of_mem listed
        exact back edge split fun before => later ((mem_first_iff nodup split).mp before)
      back_reverse := by
        intro u v edge listed _ later
        obtain ⟨first, rest, split⟩ := List.append_of_mem (List.mem_reverse.mp listed)
        exact back edge split fun before => later (idxOf_reverse_lt nodup split before) }

/-- Node 1 waits on the stack when it is first seen, from node 2. -/
example : (ofEdges 3 [(0, 2), (0, 1), (2, 1), (2, 2), (1, 0)]).recursivePostorder 0 =
    [1, 2, 0] := by cbv

end RangeFlow.Graph
