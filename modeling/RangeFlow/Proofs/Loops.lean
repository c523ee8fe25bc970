import RangeFlow.Analysis.Induction
import RangeFlow.Proofs.Predecessors

/-! # Natural loops

The header of a loop dominates its blocks, so control comes into the loop only at the header. A block
of the loop from which control goes back to the header is one of its latches.
-/

namespace RangeFlow.Function

/-- Every path to the second block ends in the first or has passed it. -/
def OnEveryPath (f : Function) (a b : BlockId) : Prop :=
  ∀ passed, f.Path b passed → a = b ∨ a ∈ passed

section Dominating

variable {f : Function} {a b : BlockId}

theorem Valid.dominates_onEveryPath (hf : f.Valid) (h : f.dominators.dominates a b = true) :
    f.OnEveryPath a b := by
  intro passed way
  rcases Bool.or_eq_true_iff.mp h with same | above
  · exact .inl (eq_of_beq same)
  · exact .inr ((hf.strictlyDominates_iff.mp above).2.2 passed way)

theorem Valid.dominates_of_onEveryPath (hf : f.Valid) (reached : f.Reachable b)
    (h : f.OnEveryPath a b) : f.dominators.dominates a b = true := by
  by_cases same : a = b
  · simp [DominatorTree.dominates, same]
  · have above := hf.strictlyDominates_iff.mpr
      ⟨reached, same, fun passed way => (h passed way).resolve_left same⟩
    simp [DominatorTree.dominates, above]

/-- A block is not needed on the way to a block that dominates it. -/
theorem OnEveryPath.avoidable (h : f.OnEveryPath a b) (reached : f.Reachable a) :
    ∃ passed, f.Path a passed ∧ b ∉ passed := by
  obtain ⟨passed, way, simple⟩ := reached.simple
  refine ⟨passed, way, fun member => ?_⟩
  obtain ⟨before, shorter, -, sub⟩ := way.to_passed member
  rcases h before shorter with rfl | earlier
  · exact simple member
  · exact simple (sub a earlier)

end Dominating

section Loop

variable {f : Function} {l : NaturalLoop} {b p : BlockId}

/-- A loop is put together from its header. -/
theorem loop_parts (hl : l ∈ f.loops.loops) :
    l.header < f.graph.size ∧
      l.latches = LoopForest.latchesOf f.graph f.dominators l.header ∧
      l.body = LoopForest.bodyOf f.graph.reverse.table l.header l.latches ∧
      l.exits = LoopForest.exitsOf f.graph l.body := by
  obtain ⟨inner, member, rfl⟩ := List.mem_map.mp hl
  obtain ⟨header, range, found⟩ := List.mem_filterMap.mp member
  unfold LoopForest.naturalLoop? at found
  split at found
  · cases found
  · cases found
    exact ⟨List.mem_range.mp range, rfl, rfl, rfl⟩

/-- The blocks of a loop are the header and those from which a way leads to a latch around it. -/
theorem mem_loop (hl : l ∈ f.loops.loops) : l.contains b = true ↔
    b < f.graph.size ∧ (b = l.header ∨ ∃ latch ∈ l.latches,
      Graph.Joined f.graph.reverse.table (fun n => n < f.graph.size ∧ n ≠ l.header) latch b) := by
  obtain ⟨-, -, body, -⟩ := loop_parts hl
  have size : f.graph.reverse.table.size = f.graph.size := Graph.size_table
  have member : b ∈ LoopForest.bodyOf f.graph.reverse.table l.header l.latches ↔
      b < f.graph.size ∧ (b = l.header ∨ ∃ latch ∈ l.latches,
        Graph.Joined f.graph.reverse.table (fun n => n < f.graph.size ∧ n ≠ l.header) latch b) := by
    change b ∈ (List.range f.graph.reverse.table.size).filter _ ↔ _
    rw [List.mem_filter, List.mem_range, Graph.mark_getD, List.mem_cons,
      Graph.mem_searchAvoiding, size]
    simp
  rw [← member, ← body, NaturalLoop.contains, IdSet.contains, decide_eq_true_eq]

theorem Valid.mem_back (hf : f.Valid) (known : b < f.graph.size) :
    p ∈ f.graph.reverse.table.getD b [] ↔ f.Feeds p b := by
  rw [@Graph.table_getD f.graph.reverse b known, Graph.mem_succs, Graph.mem_reverse_edges,
    hf.mem_graph_edges]
  rfl

variable (hf : f.Valid) (hl : l ∈ f.loops.loops)

include hf hl

theorem Valid.mem_latches : b ∈ l.latches ↔
    f.Reachable b ∧ f.Feeds b l.header ∧ f.OnEveryPath l.header b := by
  obtain ⟨-, latches, -⟩ := loop_parts hl
  have edge : b ∈ f.graph.preds l.header ↔ f.Feeds b l.header :=
    Graph.mem_preds.trans hf.mem_graph_edges
  have reached : f.dominators.isReachable b = true ↔ f.Reachable b :=
    DominatorTree.isReachable_iff.trans hf.way_nil_iff
  rw [latches, LoopForest.latchesOf, List.mem_filter, List.mem_range, Bool.and_eq_true,
    Bool.and_eq_true, List.contains_iff_mem, edge, reached, and_assoc]
  constructor
  · rintro ⟨-, reachable, feeds, dominates⟩
    exact ⟨reachable, feeds, hf.dominates_onEveryPath dominates⟩
  · rintro ⟨reachable, feeds, dominates⟩
    have inside : b < f.graph.size := (hf.way_nil_iff.mpr reachable).lt_size
    exact ⟨inside, reachable, feeds, hf.dominates_of_onEveryPath reachable dominates⟩

/-- The header dominates every block of the loop. -/
theorem Valid.header_onEveryPath (inside : l.contains b = true) : f.OnEveryPath l.header b := by
  rcases ((mem_loop hl).mp inside).2 with rfl | ⟨latch, hlatch, back⟩
  · exact fun passed _ => .inl rfl
  · -- a path around the header would go on to a latch around it
    have around : ∀ passed, f.Path b passed → l.header ≠ b → l.header ∉ passed → False := by
      clear inside
      induction back with
      | refl =>
          intro passed way other avoids
          rcases (hf.mem_latches hl).mp hlatch |>.2.2 passed way with same | passes
          · exact other same
          · exact avoids passes
      | @tail u v back step free ih =>
          intro passed way other avoids
          have fed : f.Feeds v u := (hf.mem_back back.free_right.1).mp step
          refine ih (v :: passed) (way.step_feeds fed) back.free_right.2.symm ?_
          simpa using ⟨other, avoids⟩
    intro passed way
    by_contra none
    rw [not_or] at none
    exact around passed way none.1 none.2

/-- Control comes into a loop at its header. -/
theorem Valid.eq_header_of_enters (feeds : f.Feeds p b) (inside : l.contains b = true)
    (outside : l.contains p = false) : b = l.header := by
  have known := hf.feeds_lt feeds
  rcases ((mem_loop hl).mp inside).2 with same | ⟨latch, hlatch, back⟩
  · exact same
  · have within : l.contains p = true := by
      rw [mem_loop hl]
      refine ⟨known.1, ?_⟩
      by_cases start : p = l.header
      · exact .inl start
      · exact .inr ⟨latch, hlatch, back.tail ((hf.mem_back known.2).mpr feeds) ⟨known.1, start⟩⟩
    rw [outside] at within
    cases within

/-- Control goes back to the header from a latch. -/
theorem Valid.mem_latches_of_feeds (reached : f.Reachable b) (inside : l.contains b = true)
    (feeds : f.Feeds b l.header) : b ∈ l.latches :=
  (hf.mem_latches hl).mpr ⟨reached, feeds, hf.header_onEveryPath hl inside⟩

omit hf in
theorem contains_header : l.contains l.header = true :=
  (mem_loop hl).mpr ⟨(loop_parts hl).1, .inl rfl⟩

omit hf in
theorem contains_exiting {exit : LoopExit} (h : exit ∈ l.exits) :
    l.contains exit.exiting = true := by
  obtain ⟨-, -, -, exits⟩ := loop_parts hl
  rw [exits] at h
  obtain ⟨n, hn, listed⟩ := List.mem_flatMap.mp h
  obtain ⟨s, -, rfl⟩ := List.mem_map.mp listed
  exact decide_eq_true hn

end Loop

end RangeFlow.Function
