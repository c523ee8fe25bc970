import RangeFlow.Proofs.ImmediateDominators

/-! # Bodies of natural loops

The natural loop of a header consists of the header and of the nodes from which a path leads to the
source of an edge that closes the loop, around the header. The header dominates all of them. Where
two loops share a node that can be reached, the one that contains the header of the other contains
the whole other loop. All this holds for every graph: control may enter a cycle at several nodes,
and nodes that cannot be reached may stand in a body.
-/

namespace RangeFlow.Graph

variable {g : Graph} {entry h k n b : Nat}

/-- Of two nodes one of which is required for the other, this one can be reached without the
    other. -/
theorem Requires.way_around (above : g.Requires entry h k) : g.Way [k] entry h := by
  by_contra none
  exact above.asymm ⟨above.reached, above.2.1.symm, none⟩

/-- The edge leads from a node that can be reached back to a node that dominates it. -/
structure Closes (g : Graph) (entry n h : Nat) : Prop where
  reached : g.Reaches entry n
  edge : (n, h) ∈ g.edges
  dominates : g.Dominates entry h n

/-- The node is in the loop of a header: it is the header, or a path leads from it around the header
    to the source of an edge that closes the loop. -/
def InLoop (g : Graph) (entry h b : Nat) : Prop :=
  b = h ∨ ∃ n nodes, g.Closes entry n h ∧ g.Path b n nodes ∧ h ∉ nodes

theorem inLoop_iff : g.InLoop entry h b ↔ b = h ∨ ∃ n, g.Closes entry n h ∧ g.Way [h] b n := by
  simp only [InLoop, way_iff_path, List.mem_singleton, forall_eq, exists_and_left]

/-- A header can be reached. -/
theorem Closes.header_reached (closes : g.Closes entry n h) : g.Reaches entry h :=
  reaches_iff.mpr ((reaches_iff.mp closes.reached).to_avoided (dominates_iff.mp closes.dominates))

/-- The headers by the tree of dominators. A node that is dominated by one that can be reached can
    be reached itself. -/
theorem exists_closes_iff : (∃ n, g.Closes entry n h) ↔ g.Reaches entry h ∧
    ∃ n, (n, h) ∈ g.edges ∧ (DominatorTree.ofGraph g entry).dominates h n = true := by
  simp only [DominatorTree.dominates, Bool.or_eq_true, beq_iff_eq,
    DominatorTree.strictlyDominates_iff]
  constructor
  · rintro ⟨n, closes⟩
    exact ⟨closes.header_reached, n, closes.edge,
      (eq_or_requires_iff closes.reached).mpr closes.dominates⟩
  · rintro ⟨reached, n, edge, dominates⟩
    have reached : g.Reaches entry n := by
      rcases dominates with rfl | requires
      · exact reached
      · exact reaches_iff.mpr requires.1
    exact ⟨n, reached, edge, (eq_or_requires_iff reached).mp dominates⟩

namespace InLoop

/-- The header dominates the loop. -/
theorem dominates (inside : g.InLoop entry h b) : g.Dominates entry h b := by
  rcases inLoop_iff.mp inside with rfl | ⟨n, closes, way⟩
  · exact fun _ path => path.mem
  · rw [dominates_iff]
    exact fun around => dominates_iff.mp closes.dominates (around.trans way)

theorem requires (inside : g.InLoop entry h b) (reached : g.Reaches entry b) (other : h ≠ b) :
    g.Requires entry h b :=
  ((eq_or_requires_iff reached).mpr inside.dominates).resolve_left other

/-- Of two headers that are in one chain of dominators, the loop of the first contains the second,
    if the loops share a node. -/
theorem of_common (inH : g.InLoop entry h b) (inK : g.InLoop entry k b)
    (reached : g.Reaches entry b) (above : g.Requires entry h k) : g.InLoop entry h k := by
  rcases (reaches_iff.mp reached).last_of_two above.2.1 with both | fromH | fromK
  · exact absurd (both.mono (by simp)) (dominates_iff.mp inH.dominates)
  · exact absurd (above.way_around.trans fromH) (dominates_iff.mp inK.dominates)
  · rcases inLoop_iff.mp inH with rfl | ⟨n, closes, way⟩
    · exact absurd (List.mem_singleton.mpr rfl) fromK.not_mem
    · exact inLoop_iff.mpr (.inr ⟨n, closes, fromK.trans way⟩)

/-- Of two loops that share a node that can be reached, one contains the header of the other. -/
theorem header_of_common (inH : g.InLoop entry h b) (inK : g.InLoop entry k b)
    (reached : g.Reaches entry b) (other : h ≠ k) :
    g.InLoop entry h k ∨ g.InLoop entry k h := by
  by_cases atH : h = b
  · exact .inr (atH ▸ inK)
  by_cases atK : k = b
  · exact .inl (atK ▸ inH)
  exact ((inH.requires reached atH).linear (inK.requires reached atK) other).imp
    (inH.of_common inK reached) (inK.of_common inH reached)

/-- A loop that contains the header of another contains all of it. -/
theorem trans (inside : g.InLoop entry h k) (other : h ≠ k) (inK : g.InLoop entry k b) :
    g.InLoop entry h b := by
  rcases inLoop_iff.mp inK with rfl | ⟨n, closes, way⟩
  · exact inside
  obtain ⟨m, closes', on⟩ := (inLoop_iff.mp inside).resolve_left other.symm
  by_cases around : g.Way [h] b n
  · have back := around.tail closes.edge (by simpa using other.symm)
    exact inLoop_iff.mpr (.inr ⟨m, closes', back.trans on⟩)
  · -- the path from the outer header on would go round the inner one
    have above := inside.requires closes.header_reached other
    have on := way.from_avoided around (by simpa using other)
    exact absurd (above.way_around.trans on) (dominates_iff.mp closes.dominates)

/-- Two loops do not contain the headers of each other. -/
theorem asymm (inside : g.InLoop entry h k) (other : h ≠ k) (reachedH : g.Reaches entry h)
    (reachedK : g.Reaches entry k) : ¬ g.InLoop entry k h := fun back =>
  (inside.requires reachedK other).asymm (back.requires reachedH other.symm)

end InLoop

end RangeFlow.Graph
