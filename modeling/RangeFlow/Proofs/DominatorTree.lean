import Mathlib.Data.List.Perm.Subperm
import RangeFlow.Assertion.Locus
import RangeFlow.Proofs.Dominance
import RangeFlow.Proofs.Edges
import RangeFlow.Proofs.Reachability

/-! # Dominators

The dominators that are computed for a graph are those that its ways determine: a strict dominator
of a node that can be reached is another node on every way to it. The strict dominators of a node
form a chain, ordered by their own numbers of dominators. For the blocks of a function the ways are
the paths from the entry.
-/

namespace RangeFlow

/-- Every way from the entry to the second node, of which there is one, passes the first node,
    which is another one. -/
def Graph.Requires (g : Graph) (entry a b : Nat) : Prop :=
  g.Way [] entry b ∧ a ≠ b ∧ ¬ g.Way [a] entry b

namespace Graph.Requires

variable {g : Graph} {entry a b c : Nat}

theorem reached (h : g.Requires entry a b) : g.Way [] entry a := h.1.to_avoided h.2.2

theorem asymm (h : g.Requires entry a b) : ¬ g.Requires entry b a := by
  intro back
  rcases h.1.first_of_two h.2.1 with both | toB | toA
  · exact both.not_mem (by simp)
  · exact h.2.2 toB
  · exact back.2.2 toA

theorem trans (first : g.Requires entry a b) (second : g.Requires entry b c) :
    g.Requires entry a c := by
  refine ⟨second.1, ?_, fun way => first.2.2 (way.to_avoided second.2.2)⟩
  rintro rfl
  exact first.asymm second

/-- Two nodes that are required for a third one are in order. -/
theorem linear (ha : g.Requires entry a c) (hb : g.Requires entry b c) (distinct : a ≠ b) :
    g.Requires entry a b ∨ g.Requires entry b a := by
  rcases ha.1.last_of_two distinct with both | fromA | fromB
  · exact absurd (both.mono (by simp)) ha.2.2
  · exact .inr ⟨ha.reached, distinct.symm, fun avoids => hb.2.2 (avoids.trans fromA)⟩
  · exact .inl ⟨hb.reached, distinct, fun avoids => ha.2.2 (avoids.trans fromB)⟩

end Graph.Requires

namespace DominatorTree

variable {g : Graph} {entry a b c : Nat}

theorem getD_ofFn {α : Type} {n i : Nat} {f : Fin n → α} {d : α} (h : i < n) :
    (Array.ofFn f).getD i d = f ⟨i, h⟩ := by
  simp [Array.getD, h]

theorem mem_needed (inside : b < g.size) :
    a ∈ (needed g entry).getD b [] ↔ a < g.size ∧ a ≠ b ∧ ¬ g.Way [a] entry b := by
  rw [needed, getD_ofFn inside]
  simp only [List.mem_filter, List.mem_range, Bool.and_eq_true, bne_iff_ne, Bool.not_eq_true',
    ← Bool.not_eq_true]
  refine and_congr_right fun bound => and_congr_right fun _ => not_congr ?_
  rw [reachedWithout, getD_ofFn bound, Graph.mark_getD, Graph.mem_searchAvoiding]
  simp [inside, Graph.Way]

theorem nodup_needed (inside : b < g.size) : ((needed g entry).getD b []).Nodup := by
  rw [needed, getD_ofFn inside]
  exact List.nodup_range.filter _

/-- A node that can be reached has the nodes that are needed for it, those that need most nodes
    themselves first. -/
theorem above_of_way (reached : g.Way [] entry b) :
    ∃ above, (ofGraph g entry).above.getD b none = some above ∧
      above.Perm ((needed g entry).getD b []) ∧
      above.Pairwise fun a c =>
        ((needed g entry).getD c []).length ≤ ((needed g entry).getD a []).length := by
  have marked : (Graph.mark g.size (g.postorder entry)).getD b false = true :=
    Graph.mark_getD.mpr ⟨reached.lt_size, Graph.mem_postorder.mpr reached⟩
  have found := getD_ofFn (f := fun node : Fin g.size =>
    if (Graph.mark g.size (g.postorder entry)).getD node false then
      some (((needed g entry).getD node []).mergeSort fun a b =>
        decide (((needed g entry).map List.length).getD b 0 ≤
          ((needed g entry).map List.length).getD a 0))
    else none) (d := none) reached.lt_size
  simp only [marked, if_true] at found
  refine ⟨_, found, List.mergeSort_perm _ _, ?_⟩
  have length (a : Nat) : ((needed g entry).map List.length).getD a 0 =
      ((needed g entry).getD a []).length := by
    by_cases inside : a < (needed g entry).size <;> simp [Array.getD, inside]
  simp only [length]
  refine (List.pairwise_mergeSort ?_ ?_ _).imp of_decide_eq_true
  · intro a c d first second
    rw [decide_eq_true_eq] at first second ⊢
    exact Nat.le_trans second first
  · intro a c
    simpa using Nat.le_total _ _

theorem above_of_not_way (unreached : ¬ g.Way [] entry b) :
    (ofGraph g entry).above.getD b none = none := by
  by_cases inside : b < g.size
  · rw [ofGraph, getD_ofFn inside]
    refine if_neg fun marked => unreached ?_
    exact Graph.mem_postorder.mp (Graph.mark_getD.mp marked).2
  · simp [ofGraph, Array.getD, inside]

theorem isReachable_iff : (ofGraph g entry).isReachable b = true ↔ g.Way [] entry b := by
  by_cases reached : g.Way [] entry b
  · obtain ⟨above, found, -⟩ := above_of_way reached
    simp [isReachable, found, reached]
  · simp [isReachable, above_of_not_way reached, reached]

theorem strictDominators_perm (reached : g.Way [] entry b) :
    ((ofGraph g entry).strictDominators b).Perm ((needed g entry).getD b []) := by
  obtain ⟨above, found, perm, -⟩ := above_of_way reached
  rw [strictDominators, found]
  exact perm

/-- The computed strict dominators are the nodes that every way passes. -/
theorem strictlyDominates_iff :
    (ofGraph g entry).strictlyDominates a b = true ↔ g.Requires entry a b := by
  by_cases reached : g.Way [] entry b
  · rw [strictlyDominates, List.contains_iff_mem, (strictDominators_perm reached).mem_iff,
      mem_needed reached.lt_size]
    constructor
    · rintro ⟨-, distinct, needed⟩
      exact ⟨reached, distinct, needed⟩
    · intro required
      exact ⟨required.reached.lt_size, required.2⟩
  · have none : (ofGraph g entry).strictDominators b = [] := by
      rw [strictDominators, above_of_not_way reached]
      rfl
    simp [strictlyDominates, none, Graph.Requires, reached]

theorem nodup_strictDominators : ((ofGraph g entry).strictDominators b).Nodup := by
  by_cases reached : g.Way [] entry b
  · exact (strictDominators_perm reached).nodup_iff.mpr (nodup_needed reached.lt_size)
  · rw [strictDominators, above_of_not_way reached]
    exact List.nodup_nil

/-- A strict dominator has fewer strict dominators than what it dominates. -/
theorem depth_lt (h : g.Requires entry a b) :
    (ofGraph g entry).depth a < (ofGraph g entry).depth b := by
  have sub : (a :: (ofGraph g entry).strictDominators a).Subperm
      ((ofGraph g entry).strictDominators b) := by
    refine List.subperm_of_subset ?_ ?_
    · refine List.nodup_cons.mpr ⟨fun member => ?_, nodup_strictDominators⟩
      have itself := strictlyDominates_iff.mp (List.contains_iff_mem.mpr member)
      exact itself.2.1 rfl
    · intro d member
      rw [← List.contains_iff_mem]
      rcases List.mem_cons.mp member with rfl | member
      · exact strictlyDominates_iff.mpr h
      · have above := strictlyDominates_iff.mp (List.contains_iff_mem.mpr member)
        exact strictlyDominates_iff.mpr (above.trans h)
  exact sub.length_le

/-- The nearest strict dominators come first. -/
theorem pairwise_strictDominators : ((ofGraph g entry).strictDominators b).Pairwise fun a c =>
    (ofGraph g entry).depth c ≤ (ofGraph g entry).depth a := by
  by_cases reached : g.Way [] entry b
  · have depth {d : Nat} (member : d ∈ (ofGraph g entry).strictDominators b) :
        (ofGraph g entry).depth d = ((needed g entry).getD d []).length :=
      (strictDominators_perm
        (strictlyDominates_iff.mp (List.contains_iff_mem.mpr member)).reached).length_eq
    obtain ⟨above, found, -, ordered⟩ := above_of_way reached
    rw [strictDominators, found] at depth ⊢
    refine ordered.imp_of_mem fun memberA memberC le => ?_
    rw [depth memberA, depth memberC]
    exact le
  · rw [strictDominators, above_of_not_way reached]
    exact List.Pairwise.nil

/-- A strict dominator that all others dominate is the immediate one. -/
theorem immediate?_eq_some (h : g.Requires entry a b)
    (nearest : ∀ d, g.Requires entry d b → d = a ∨ g.Requires entry d a) :
    (ofGraph g entry).immediate? b = some a := by
  have member := List.contains_iff_mem.mp (strictlyDominates_iff.mpr h)
  have ordered : ((ofGraph g entry).strictDominators b).Pairwise _ := pairwise_strictDominators
  rw [immediate?]
  cases strict : (ofGraph g entry).strictDominators b with
  | nil =>
      rw [strict] at member
      cases member
  | cons d rest =>
      rw [strict] at member ordered
      have first : g.Requires entry d b := by
        rw [← strictlyDominates_iff, strictlyDominates, strict]
        simp
      rcases nearest d first with same | above
      · rw [same]
        rfl
      · have later : a ∈ rest := (List.mem_cons.mp member).resolve_left above.2.1.symm
        have le := List.rel_of_pairwise_cons ordered later
        exact absurd (depth_lt above) (Nat.not_lt.mpr le)

theorem immediate?_eq_none (h : ∀ d, ¬ g.Requires entry d b) :
    (ofGraph g entry).immediate? b = none := by
  rw [immediate?, List.head?_eq_none_iff, List.eq_nil_iff_forall_not_mem]
  exact fun d member => h d (strictlyDominates_iff.mp (List.contains_iff_mem.mpr member))

/-- The dominators of a graph can be found in stages: what is reached without each node, the nodes
    that are needed to reach each other one, and what is reached at all. -/
theorem ofGraph_of_stages {without : Array (Array Bool)} {reached : Array Bool}
    (strict : Array (List Nat)) (avoiding : reachedWithout g entry = without)
    (needs : (Array.ofFn fun node : Fin g.size => (List.range g.size).filter fun a : Nat =>
      a != node && !((without.getD a #[]).getD node false)) = strict)
    (reaches : Graph.mark g.size (g.postorder entry) = reached) :
    ofGraph g entry = ⟨entry, Array.ofFn fun node : Fin g.size =>
      if reached.getD node false then
        some ((strict.getD node []).mergeSort fun a b =>
          decide ((strict.map List.length).getD b 0 ≤ (strict.map List.length).getD a 0))
      else none⟩ := by
  subst avoiding needs reaches
  rfl

end DominatorTree

namespace Position

theorem lt_irrefl (p : Position) : p.lt p = false := by
  cases p <;> simp [lt]

theorem lt_trans {p q r : Position} (first : p.lt q = true) (second : q.lt r = true) :
    p.lt r = true := by
  cases p <;> cases q <;> cases r <;> simp_all [lt]
  omega

theorem lt_or_gt {p q : Position} (distinct : p ≠ q) : p.lt q = true ∨ q.lt p = true := by
  cases p with
  | before i =>
    cases q with
    | before j =>
      have apart : i ≠ j := fun same => distinct (congrArg before same)
      simpa only [lt, decide_eq_true_eq] using Nat.lt_or_gt_of_ne apart
    | blockEnd => exact .inl rfl
  | blockEnd =>
    cases q with
    | before j => exact .inr rfl
    | blockEnd => exact absurd rfl distinct

end Position

namespace Point

variable {g : Graph} {entry : Nat} {p q r : Point}

theorem strictlyDominates_irrefl (t : DominatorTree) (p : Point) :
    p.strictlyDominates t p = false := by
  simp [strictlyDominates, Position.lt_irrefl]

/-- The one point comes before the other in one block, or its block is required. -/
theorem strictlyDominates_iff :
    p.strictlyDominates (.ofGraph g entry) q = true ↔
      (p.block = q.block ∧ p.position.lt q.position = true) ∨ g.Requires entry p.block q.block := by
  unfold strictlyDominates
  split
  · next same => simp [same, Graph.Requires]
  · next other => simp [other, DominatorTree.strictlyDominates_iff]

theorem strictlyDominates_trans (first : p.strictlyDominates (.ofGraph g entry) q = true)
    (second : q.strictlyDominates (.ofGraph g entry) r = true) :
    p.strictlyDominates (.ofGraph g entry) r = true := by
  rw [strictlyDominates_iff] at first second ⊢
  rcases first with ⟨same, before⟩ | above <;> rcases second with ⟨same', before'⟩ | above'
  · exact .inl ⟨same.trans same', Position.lt_trans before before'⟩
  · exact .inr (same ▸ above')
  · exact .inr (same' ▸ above)
  · exact .inr (above.trans above')

/-- Two points that dominate a third one are in order. -/
theorem strictlyDominates_linear (hp : p.strictlyDominates (.ofGraph g entry) r = true)
    (hq : q.strictlyDominates (.ofGraph g entry) r = true) (distinct : p ≠ q) :
    p.strictlyDominates (.ofGraph g entry) q = true ∨
      q.strictlyDominates (.ofGraph g entry) p = true := by
  by_cases same : p.block = q.block
  · have apart : p.position ≠ q.position := fun e => distinct (by cases p; cases q; simp_all)
    have order := Position.lt_or_gt apart
    simpa [strictlyDominates, same] using order
  · rw [strictlyDominates_iff] at hp hq
    simp only [strictlyDominates_iff]
    rcases hp with ⟨here, -⟩ | above <;> rcases hq with ⟨here', -⟩ | above'
    · exact absurd (here.trans here'.symm) same
    · exact .inr (.inr (here ▸ above'))
    · exact .inl (.inr (here' ▸ above))
    · exact (above.linear above' same).imp .inr .inr

end Point

namespace Function

variable {f : Function} {a b : BlockId} {passed : List BlockId}

theorem Valid.mem_graph_edges (hf : f.Valid) :
    (a, b) ∈ f.graph.edges ↔
      ∃ block, f.block? a = some block ∧ b ∈ block.terminator.targets ++ block.abnormal := by
  simp only [graph, Graph.ofEdges, List.mem_filter, List.mem_map, decide_eq_true_eq]
  constructor
  · rintro ⟨⟨e, he, same⟩, -⟩
    cases same
    obtain ⟨block, -, flags, hblock, -, out, -⟩ := mem_edges.mp he
    exact ⟨block, hblock, Block.mem_outgoing.mp ⟨flags, out⟩⟩
  · rintro ⟨block, hblock, target⟩
    obtain ⟨id, found⟩ := hf.findEdge?_target hblock target
    obtain ⟨e, he, rfl, rfl⟩ := findEdge?_eq_some found
    refine ⟨⟨e, mem_edges_of_edge? he, rfl⟩, ?_, ?_⟩
    · exact (List.getElem?_eq_some_iff.mp hblock).1
    · exact hf.targets block (List.mem_of_getElem? hblock) _ target

/-- The ways from the entry through the graph are the paths through the blocks. -/
theorem Valid.way_iff (hf : f.Valid) {avoid : List BlockId} :
    f.graph.Way avoid f.entry b ↔ ∃ passed, f.Path b passed ∧ ∀ d ∈ avoid, d ≠ b ∧ d ∉ passed := by
  constructor
  · intro way
    refine way.rec_edges (motive := fun b =>
      ∃ passed, f.Path b passed ∧ ∀ d ∈ avoid, d ≠ b ∧ d ∉ passed) ?_ ?_
    · intro _ free
      refine ⟨[], .entry, fun d hd => ⟨?_, List.not_mem_nil⟩⟩
      rintro rfl
      exact free hd
    · rintro u v - ⟨passed, path, avoids⟩ edge free
      obtain ⟨block, hblock, target⟩ := hf.mem_graph_edges.mp edge
      refine ⟨u :: passed, path.step hblock target, fun d hd => ⟨?_, ?_⟩⟩
      · rintro rfl
        exact free hd
      · simpa using avoids d hd
  · rintro ⟨passed, path, avoids⟩
    induction path with
    | entry =>
        refine .refl ?_ fun member => (avoids _ member).1 rfl
        exact List.length_pos_iff.mpr hf.nonempty
    | step path hblock target ih =>
        have before := ih fun d hd => by simpa using (avoids d hd).2
        refine before.tail (hf.mem_graph_edges.mpr ⟨_, hblock, target⟩) ?_
        exact fun member => (avoids _ member).1 rfl

/-- A block is reached from the entry. -/
def Reachable (f : Function) (b : BlockId) : Prop := ∃ passed, f.Path b passed

theorem Valid.way_nil_iff (hf : f.Valid) : f.graph.Way [] f.entry b ↔ f.Reachable b := by
  simp [hf.way_iff, Reachable]

/-- From every block that can be reached there is a path to it that does not pass it before. -/
theorem Reachable.simple (h : f.Reachable b) : ∃ passed, f.Path b passed ∧ b ∉ passed := by
  obtain ⟨passed, way⟩ := h
  induction length : passed.length using Nat.strongRecOn generalizing passed with
  | _ n ih =>
      by_cases again : b ∈ passed
      · obtain ⟨before, shorter, less, -⟩ := way.to_passed again
        exact ih before.length (length ▸ less) before shorter rfl
      · exact ⟨passed, way, again⟩

/-- The computed dominators are those of the paths. -/
theorem Valid.strictlyDominates_iff (hf : f.Valid) :
    f.dominators.strictlyDominates a b = true ↔
      f.Reachable b ∧ a ≠ b ∧ ∀ passed, f.Path b passed → a ∈ passed := by
  rw [dominators, DominatorTree.strictlyDominates_iff, Graph.Requires, hf.way_nil_iff]
  refine and_congr_right fun _ => and_congr_right fun distinct => ?_
  simp only [hf.way_iff, List.mem_singleton, forall_eq, not_exists, not_and, not_not]
  exact forall_congr' fun passed => ⟨fun h path => h path distinct, fun h path _ => h path⟩

end Function

end RangeFlow
