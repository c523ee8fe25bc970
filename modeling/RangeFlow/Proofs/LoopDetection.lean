import Mathlib
import RangeFlow.Proofs.GrownLoops
import RangeFlow.Proofs.LoopTables

/-! # Detection of loops

Growing the loops edge by edge, comparing their bodies, and filing them in a table of the nodes, one
finds the natural loops of the graph with their places among each other. What is found is the same
in whatever order the loops are listed in between, and the same as what is read off the latches and
the loops around a loop.
-/

namespace RangeFlow

namespace LoopForest

variable {g : Graph} {t : DominatorTree} {entry : Nat} {l m : NaturalLoop}

theorem naturalLoop?_eq_some {h : Nat} (found : naturalLoop? g g.reverse.table t h = some l) :
    l.header = h ∧ l.latches ≠ [] ∧ l.latches = latchesOf g t h ∧
      l.body = bodyOf g.reverse.table h l.latches := by
  unfold naturalLoop? at found
  split at found
  · cases found
  · next some_ =>
      cases found
      exact ⟨rfl, some_, rfl, rfl⟩

theorem naturalLoop?_eq_none {h : Nat} :
    naturalLoop? g g.reverse.table t h = none ↔ latchesOf g t h = [] := by
  unfold naturalLoop?
  split
  · next none => simp [none]
  · next some_ => simpa using some_

/-- The loops by their headers, without their place among each other. -/
def unnested (g : Graph) (t : DominatorTree) : List NaturalLoop :=
  (List.range g.size).filterMap (naturalLoop? g g.reverse.table t)

theorem ofGraph_loops : (ofGraph g t).loops = (unnested g t).map (nest (unnested g t)) := rfl

theorem mem_unnested : l ∈ unnested g t ↔
    l.header < g.size ∧ naturalLoop? g g.reverse.table t l.header = some l := by
  rw [unnested, List.mem_filterMap]
  constructor
  · rintro ⟨h, inside, found⟩
    obtain ⟨rfl, -⟩ := naturalLoop?_eq_some found
    exact ⟨List.mem_range.mp inside, found⟩
  · rintro ⟨inside, found⟩
    exact ⟨_, List.mem_range.mpr inside, found⟩

theorem pairwise_unnested : (unnested g t).Pairwise fun l m => l.header < m.header := by
  refine List.Pairwise.filterMap _ ?_ List.pairwise_lt_range
  intro h k less l found m found'
  rw [(naturalLoop?_eq_some found).1, (naturalLoop?_eq_some found').1]
  exact less

/-- The latches of a header are the sources of the edges that close its loop. -/
theorem mem_latchesOf_iff {n h : Nat} :
    n ∈ latchesOf g (.ofGraph g entry) h ↔ g.Closes entry n h := by
  rw [LoopGrowth.mem_latchesOf, LoopGrowth.mem_edgesInReach, DominatorTree.isReachable_iff,
    ← Graph.reaches_iff, DominatorTree.dominates, Bool.or_eq_true, beq_iff_eq,
    DominatorTree.strictlyDominates_iff]
  constructor
  · rintro ⟨⟨reached, edge⟩, dominates⟩
    exact ⟨reached, edge, (Graph.eq_or_requires_iff reached).mp dominates⟩
  · rintro ⟨reached, edge, dominates⟩
    exact ⟨⟨reached, edge⟩, (Graph.eq_or_requires_iff reached).mpr dominates⟩

theorem mem_latches (hl : l ∈ unnested g (.ofGraph g entry)) {n : Nat} :
    n ∈ l.latches ↔ g.Closes entry n l.header := by
  obtain ⟨-, -, latches, -⟩ := naturalLoop?_eq_some (mem_unnested.mp hl).2
  rw [latches, mem_latchesOf_iff]

theorem nodup_latches (hl : l ∈ unnested g t) : l.latches.Nodup := by
  obtain ⟨-, -, latches, -⟩ := naturalLoop?_eq_some (mem_unnested.mp hl).2
  rw [latches]
  exact List.nodup_range.filter _

theorem family_unnested (g : Graph) (entry : Nat) :
    Family g entry (unnested g (.ofGraph g entry)) where
  nodup := List.pairwise_map.mpr (pairwise_unnested.imp Nat.ne_of_lt)
  headers := by
    intro h
    rw [List.mem_map]
    constructor
    · rintro ⟨l, hl, rfl⟩
      obtain ⟨-, some_, -⟩ := naturalLoop?_eq_some (mem_unnested.mp hl).2
      obtain ⟨n, hn⟩ := List.exists_mem_of_ne_nil _ some_
      exact ⟨n, (mem_latches hl).mp hn⟩
    · rintro ⟨n, closes⟩
      cases found : naturalLoop? g g.reverse.table (.ofGraph g entry) h with
      | none =>
          have latch := mem_latchesOf_iff.mpr closes
          rw [naturalLoop?_eq_none.mp found] at latch
          cases latch
      | some l =>
          obtain ⟨rfl, -⟩ := naturalLoop?_eq_some found
          exact ⟨l, mem_unnested.mpr ⟨(g.inRange _ closes.edge).2, found⟩, rfl⟩
  contains := by
    intro l hl b
    obtain ⟨inside, found⟩ := mem_unnested.mp hl
    obtain ⟨-, -, -, body⟩ := naturalLoop?_eq_some found
    rw [NaturalLoop.contains_iff, body, LoopGrowth.mem_bodyOf, Graph.inLoop_iff]
    simp only [mem_latches hl]
    refine and_iff_right_of_imp ?_
    rintro (rfl | ⟨n, -, way⟩)
    · exact inside
    · exact way.free_left.1

end LoopForest

namespace NaturalLoop

/-- The nodes of the loop that can be reached. -/
def reach (l : NaturalLoop) (g : Graph) (entry : Nat) : Set Nat :=
  {b | g.Reaches entry b ∧ l.contains b = true}

end NaturalLoop

namespace LoopForest

open LoopGrowth (smallest?)

variable {g : Graph} {entry : Nat} {loops values : List NaturalLoop} {l m : NaturalLoop}

namespace Family

variable (family : Family g entry loops) (hl : l ∈ loops) (hm : m ∈ loops)

include family hl hm

theorem reach_ssubset (other : m.header ≠ l.header) (inside : m.contains l.header = true) :
    l.reach g entry ⊂ m.reach g entry := by
  refine Set.ssubset_iff_exists.mpr ⟨fun b hb => ⟨hb.1, family.sub hl hm other inside hb.2⟩, ?_⟩
  refine ⟨m.header, ⟨family.reached hm, family.contains_header hm⟩, fun back => ?_⟩
  have outside := family.outside hl hm other inside
  rw [back.2] at outside
  cases outside

/-- Two loops share no node that can be reached, or one lies in the other. -/
theorem laminar (other : l ≠ m) : Disjoint (l.reach g entry) (m.reach g entry) ∨
    l.reach g entry ⊂ m.reach g entry ∨ m.reach g entry ⊂ l.reach g entry := by
  have apart := (family.header_ne_iff hl hm).mpr other
  refine or_iff_not_imp_left.mpr fun shared => ?_
  obtain ⟨b, inL, inM⟩ := Set.not_disjoint_iff.mp shared
  rcases family.order hl hm apart inL.1 inL.2 inM.2 with inside | inside
  · exact .inr (family.reach_ssubset hm hl apart inside)
  · exact .inl (family.reach_ssubset hl hm apart.symm inside)

/-- A loop in another has more loops around it. -/
theorem length_around_lt (other : m.header ≠ l.header) (inside : m.contains l.header = true) :
    (around loops m).length < (around loops l).length := by
  have nodup : (m :: around loops m).Nodup :=
    List.nodup_cons.mpr ⟨fun itself => (mem_around.mp itself).2.1 rfl, family.nodup_loops.filter _⟩
  refine (List.subperm_of_subset nodup fun k hk => ?_).length_le
  rcases List.mem_cons.mp hk with rfl | hk
  · exact mem_around.mpr ⟨hm, other, inside⟩
  · obtain ⟨member, apart, around⟩ := mem_around.mp hk
    refine mem_around.mpr ⟨member, fun same => ?_, family.sub hm member apart around inside⟩
    have outside := family.outside hl hm other inside
    rw [← family.eq_of_header member hl same, around] at outside
    cases outside

end Family

/-- Every loop has the depth and the parent that the loops around it give. -/
structure Nested (loops : List NaturalLoop) : Prop where
  depth : ∀ l ∈ loops, l.depth = (around loops l).length
  parent : ∀ l ∈ loops, l.parent = (smallest? (around loops l)).map NaturalLoop.header

theorem smallest?_map {f : NaturalLoop → NaturalLoop} (size : ∀ m, (f m).size = m.size) :
    smallest? (loops.map f) = (smallest? loops).map f := by
  rw [smallest?, smallest?, List.foldl_map, ← Option.map_none (f := f)]
  refine List.foldl_hom (Option.map f) ?_
  intro best m
  cases best with
  | none => rfl
  | some b =>
      simp only [Option.map_some, Option.all_some, size]
      split <;> rfl

theorem around_map_nest : around (loops.map (nest loops)) (nest loops l) =
    (around loops l).map (nest loops) := by
  rw [around, List.filter_map]
  rfl

theorem nested_map_nest (loops : List NaturalLoop) : Nested (loops.map (nest loops)) where
  depth := by
    intro m hm
    obtain ⟨l, -, rfl⟩ := List.mem_map.mp hm
    rw [around_map_nest, List.length_map]
    rfl
  parent := by
    intro m hm
    obtain ⟨l, -, rfl⟩ := List.mem_map.mp hm
    rw [around_map_nest, smallest?_map (f := nest loops) fun _ => rfl, Option.map_map]
    rfl

theorem Family.map_nest (family : Family g entry loops) :
    Family g entry (loops.map (nest loops)) := by
  have headers : (loops.map (nest loops)).map NaturalLoop.header =
      loops.map NaturalLoop.header := by
    rw [List.map_map]
    rfl
  refine ⟨headers ▸ family.nodup, headers ▸ family.headers, fun m hm => ?_⟩
  obtain ⟨l, hl, rfl⟩ := List.mem_map.mp hm
  exact family.contains l hl

/-- Nested in any order and sorted by their headers, the loops are in one order. -/
theorem Family.mergeSort_nest (family : Family g entry loops) (perm : values.Perm loops)
    (ascending : loops.Pairwise fun l m => l.header < m.header) :
    (values.map (nest values)).mergeSort (fun l m => decide (l.header ≤ m.header)) =
      loops.map (nest loops) := by
  have same : values.map (nest values) = values.map (nest loops) :=
    List.map_congr_left fun l hl => family.nest_perm perm (perm.mem_iff.mp hl)
  rw [same]
  have order := (List.mergeSort_perm (values.map (nest loops))
    fun l m => decide (l.header ≤ m.header)).trans (perm.map _)
  have sorted : ((values.map (nest loops)).mergeSort
      fun l m => decide (l.header ≤ m.header)).Pairwise
        fun l m => decide (l.header ≤ m.header) = true :=
    List.pairwise_mergeSort (fun l m k => by simpa using Nat.le_trans)
      (fun l m => by simpa using Nat.le_total _ _) _
  simp only [decide_eq_true_eq] at sorted
  refine order.eq_of_pairwise ?_ sorted (List.pairwise_map.mpr (ascending.imp Nat.le_of_lt))
  intro l m hl hm before after
  exact family.map_nest.eq_of_header (order.mem_iff.mp hl) hm (Nat.le_antisymm before after)

namespace Nested

variable (nested : Nested loops) (family : Family g entry loops)

include nested family

/-- A loop in another is deeper. -/
theorem depth_lt (hl : l ∈ loops) (hm : m ∈ loops) (other : m.header ≠ l.header)
    (inside : m.contains l.header = true) : m.depth < l.depth := by
  rw [nested.depth l hl, nested.depth m hm]
  exact family.length_around_lt hl hm other inside

/-- Of two loops around a node that can be reached, the one that is not deeper is around the
    other. -/
theorem depth_lt_of_le {b : Nat} (hl : l ∈ loops) (hm : m ∈ loops) (other : m ≠ l)
    (reached : g.Reaches entry b) (inL : l.contains b = true) (inM : m.contains b = true)
    (le : m.depth ≤ l.depth) : m.depth < l.depth := by
  have apart := (family.header_ne_iff hm hl).mpr other
  rcases family.order hm hl apart reached inM inL with inside | inside
  · exact nested.depth_lt family hl hm apart inside
  · exact absurd (nested.depth_lt family hm hl apart.symm inside) (Nat.not_lt.mpr le)

theorem depth_eq_filter (hl : l ∈ loops) : l.depth =
    (loops.filter fun m => decide (m ≠ l) && m.contains l.header).length := by
  rw [nested.depth l hl, around]
  congr 1
  refine List.filter_congr fun m hm => ?_
  congr 1
  rw [Bool.eq_iff_iff, bne_iff_ne, decide_eq_true_eq]
  exact family.header_ne_iff hm hl

theorem parent_eq_none (hl : l ∈ loops) : l.parent = none ↔
    ∀ m ∈ loops, m ≠ l → m.contains l.header = false := by
  rw [nested.parent l hl, Option.map_eq_none_iff, smallest?_eq_none,
    List.eq_nil_iff_forall_not_mem]
  refine forall_congr' fun m => ?_
  rw [family.mem_around_iff hl, ← Bool.not_eq_true, not_and, not_and]

/-- The parent lies in all other loops around the loop. -/
theorem parent_eq_some (hl : l ∈ loops) {h : Nat} : l.parent = some h ↔
    ∃ m ∈ loops, m.header = h ∧ m ≠ l ∧ m.contains l.header = true ∧
      ∀ k ∈ loops, k ≠ l → k.contains l.header = true → m.reach g entry ⊆ k.reach g entry := by
  rw [nested.parent l hl, Option.map_eq_some_iff]
  refine exists_congr fun m => ?_
  constructor
  · rintro ⟨found, rfl⟩
    have hm := smallest?_mem found
    obtain ⟨member, other, inside⟩ := (family.mem_around_iff hl).mp hm
    refine ⟨member, rfl, other, inside, fun k memberK otherK insideK => ?_⟩
    have hk := (family.mem_around_iff hl).mpr ⟨memberK, otherK, insideK⟩
    by_cases same : k = m
    · rw [same]
    · have around := family.contains_of_around hl hm hk same (smallest?_le found hk)
      have apart := (family.header_ne_iff memberK member).mpr same
      exact (family.reach_ssubset member memberK apart around).subset
  · rintro ⟨member, rfl, other, inside, least⟩
    have hm := (family.mem_around_iff hl).mpr ⟨member, other, inside⟩
    refine ⟨family.smallest?_around hl hm fun k hk => ?_, rfl⟩
    obtain ⟨memberK, otherK, insideK⟩ := (family.mem_around_iff hl).mp hk
    by_contra smaller
    have different : m ≠ k := by
      rintro rfl
      exact smaller le_rfl
    have around := family.contains_of_around hl hk hm different (Nat.le_of_not_le smaller)
    have apart := (family.header_ne_iff member memberK).mpr different
    exact (family.reach_ssubset memberK member apart around).not_subset
      (least k memberK otherK insideK)

/-- The deepest loop around a node that can be reached is deeper than all others around it. -/
theorem deepest?_eq_some {b : Nat} (reached : g.Reaches entry b) : deepest? loops b = some l ↔
    l ∈ loops ∧ l.contains b = true ∧
      ∀ m ∈ loops, m ≠ l → m.contains b = true → m.depth < l.depth := by
  have spec := deepest?_spec loops b
  constructor
  · intro found
    rw [found] at spec
    obtain ⟨hl, inL, most⟩ := spec
    exact ⟨hl, inL, fun m hm other inM =>
      nested.depth_lt_of_le family hl hm other reached inL inM (most m hm inM)⟩
  · rintro ⟨hl, inL, deeper⟩
    cases found : deepest? loops b with
    | none =>
        rw [found] at spec
        rw [spec l hl] at inL
        cases inL
    | some m =>
        rw [found] at spec
        obtain ⟨hm, inM, most⟩ := spec
        by_contra other
        exact absurd (deeper m hm (fun same => other (congrArg some same)) inM)
          (Nat.not_lt.mpr (most l hl inL))

end Nested

end LoopForest

namespace LoopTable

open LoopForest (deepest? nest unnested)

/-- The loops of the table are the natural loops of the graph, each with its place among them. -/
structure Correct (table : LoopTable) (g : Graph) (entry : Nat) : Prop where
  /-- There is a loop for each node that can be reached and to which an edge leads from a node that
      it dominates. -/
  headers : ∀ h, h ∈ table.loops.map NaturalLoop.header ↔ g.Reaches entry h ∧
    ∃ n, (n, h) ∈ g.edges ∧ (DominatorTree.ofGraph g entry).dominates h n = true
  /-- There is only one loop for each of them. -/
  distinct : (table.loops.map NaturalLoop.header).Nodup
  /-- The latches are the sources of these edges that can be reached. -/
  latches : ∀ l ∈ table.loops, l.latches.Nodup ∧
    ∀ n, n ∈ l.latches ↔ g.Reaches entry n ∧ (n, l.header) ∈ g.edges ∧ g.Dominates entry l.header n
  /-- The nodes are the header and those from which a path leads around it to a latch. -/
  body : ∀ l ∈ table.loops, ∀ b, l.contains b = true ↔
    b = l.header ∨ ∃ n ∈ l.latches, ∃ nodes, g.Path b n nodes ∧ l.header ∉ nodes
  /-- The header dominates the nodes. -/
  dominated : ∀ l ∈ table.loops, ∀ b, l.contains b = true → g.Dominates entry l.header b
  /-- Two loops share no node that can be reached, or one lies in the other. -/
  laminar : ∀ l ∈ table.loops, ∀ m ∈ table.loops, l ≠ m →
    Disjoint (l.reach g entry) (m.reach g entry) ∨
      l.reach g entry ⊂ m.reach g entry ∨ m.reach g entry ⊂ l.reach g entry
  /-- The parent is the other loop around the header that lies in all others around it. -/
  parent : ∀ l ∈ table.loops, ∀ h, l.parent = some h ↔ ∃ m ∈ table.loops, m.header = h ∧ m ≠ l ∧
    m.contains l.header = true ∧ ∀ k ∈ table.loops, k ≠ l → k.contains l.header = true →
      m.reach g entry ⊆ k.reach g entry
  /-- Without a parent there is no other loop around the header. -/
  parent_none : ∀ l ∈ table.loops, l.parent = none ↔
    ∀ m ∈ table.loops, m ≠ l → m.contains l.header = false
  /-- The depth is the number of the other loops around the header. -/
  depth : ∀ l ∈ table.loops, l.depth =
    (table.loops.filter fun m => decide (m ≠ l) && m.contains l.header).length
  /-- The innermost loop of a node is deeper than all others around the node. -/
  innermost : ∀ b, g.Reaches entry b → ∀ l, table.innermost? b = some l ↔
    l ∈ table.loops ∧ l.contains b = true ∧
      ∀ m ∈ table.loops, m ≠ l → m.contains b = true → m.depth < l.depth
  /-- A node without an innermost loop is in no loop. -/
  innermost_none : ∀ b, g.Reaches entry b →
    (table.innermost? b = none ↔ ∀ l ∈ table.loops, l.contains b = false)

/-- The answers of a table are those that the loops read off the graph give. -/
structure Agrees (table : LoopTable) (forest : LoopForest) : Prop where
  loops : table.loops = forest.loops
  innermost : ∀ b, table.innermost? b = forest.innermost? b

variable {g : Graph} {entry : Nat} {table : LoopTable}
  {listed : List NaturalLoop → List NaturalLoop}

theorem Represents.agrees {forest : LoopForest} (h : table.Represents forest.size forest.loops) :
    table.Agrees forest :=
  ⟨h.eq_loops, h.innermost?_eq⟩

theorem Represents.correct
    (h : table.Represents g.size (LoopForest.ofGraph g (.ofGraph g entry)).loops) :
    table.Correct g entry := by
  have family := (LoopForest.family_unnested g entry).map_nest
  have nested := LoopForest.nested_map_nest (unnested g (.ofGraph g entry))
  rw [LoopForest.ofGraph_loops] at h
  rw [← h.eq_loops] at family nested
  have latches : ∀ l ∈ table.loops, l.latches.Nodup ∧
      ∀ n, n ∈ l.latches ↔ g.Closes entry n l.header := by
    intro l hl
    rw [h.eq_loops] at hl
    obtain ⟨k, hk, rfl⟩ := List.mem_map.mp hl
    change k.latches.Nodup ∧ ∀ n, n ∈ k.latches ↔ g.Closes entry n k.header
    exact ⟨LoopForest.nodup_latches hk, fun _ => LoopForest.mem_latches hk⟩
  have innermost : ∀ b, g.Reaches entry b → table.innermost? b = deepest? table.loops b := by
    intro b reached
    rw [h.innermost?_eq, LoopForest.innermost?_eq, if_pos (Graph.reaches_iff.mp reached).lt_size,
      h.eq_loops]
  exact
    { headers := fun h => (family.headers h).trans Graph.exists_closes_iff
      distinct := family.nodup
      latches := by
        intro l hl
        obtain ⟨nodup, closes⟩ := latches l hl
        refine ⟨nodup, fun n => (closes n).trans ?_⟩
        exact ⟨fun ⟨reached, edge, dominates⟩ => ⟨reached, edge, dominates⟩,
          fun ⟨reached, edge, dominates⟩ => ⟨reached, edge, dominates⟩⟩
      body := by
        intro l hl b
        rw [family.contains l hl]
        simp only [Graph.InLoop, (latches l hl).2, exists_and_left]
      dominated := fun l hl b inside => ((family.contains l hl b).mp inside).dominates
      laminar := fun l hl m hm other => family.laminar hl hm other
      parent := fun l hl _ => nested.parent_eq_some family hl
      parent_none := fun l hl => nested.parent_eq_none family hl
      depth := fun l hl => nested.depth_eq_filter family hl
      innermost := by
        intro b reached l
        rw [innermost b reached, nested.deepest?_eq_some family reached]
      innermost_none := by
        intro b reached
        rw [innermost b reached, LoopForest.deepest?_eq_none] }

/-- For every graph and every node to start from, the loops are found. They are the natural loops of
    the graph, nested as they contain each other, and do not depend on how they were listed in
    between. -/
theorem detect_correct (perm : ∀ loops, (listed loops).Perm loops) :
    ∃ table ∈ detect g (.ofGraph g entry) listed, table.Correct g entry ∧
      table.Agrees (.ofGraph g (.ofGraph g entry)) := by
  obtain ⟨found, run, known⟩ := LoopGrowth.byHeader_eq g (.ofGraph g entry)
  have family := LoopForest.family_unnested g entry
  have nested := LoopGrowth.mem_nest (family.perm (perm (unnested g (.ofGraph g entry))))
  obtain ⟨table, added, represents⟩ := foldlM_add?_represents (represents_empty g.size)
    (LoopForest.ofGraph g (.ofGraph g entry)).loops
  refine ⟨table, Part.mem_bind run ?_, represents.correct, represents.agrees⟩
  rw [known]
  refine Part.mem_bind nested ?_
  rw [family.mergeSort_nest (perm _) LoopForest.pairwise_unnested]
  exact Part.mem_ofOption.mpr added

/-- A loop of one node in a loop. No path leads to node 2, which is in the outer loop. -/
def loopInLoop : Graph := ⟨3, [(0, 1), (1, 1), (1, 0), (2, 1)], by decide⟩

theorem detect_correct_loopInLoop : (∀ loops : List NaturalLoop, loops.reverse.Perm loops) ∧
    ∃ table ∈ detect loopInLoop (.ofGraph loopInLoop 0) List.reverse,
      table.loops.map (fun l => (l.header, l.body.toList, l.latches, l.parent, l.depth)) =
        [(0, [0, 1, 2], [1], none, 0), (1, [1], [1], some 0, 1)] ∧
      (table.innermost? 1).map NaturalLoop.header = some 1 := by
  have tree : DominatorTree.ofGraph loopInLoop 0 = ⟨0, #[some [], some [0], none]⟩ := by cbv
  have known : LoopForest.ofGraph loopInLoop ⟨0, #[some [], some [0], none]⟩ =
      ⟨3, [{ header := 0, body := .ofList [0, 1, 2], latches := [1], preheader := none,
             exits := [], depth := 0, parent := none },
           { header := 1, body := .ofList [1], latches := [1], preheader := none,
             exits := [⟨1, 0⟩], depth := 1, parent := some 0 }]⟩ := by
    cbv
  refine ⟨List.reverse_perm, ?_⟩
  obtain ⟨table, found, -, agrees⟩ := @detect_correct loopInLoop 0 _ List.reverse_perm
  refine ⟨table, found, ?_, ?_⟩
  · rw [agrees.loops, tree, known]
    decide
  · rw [agrees.innermost, tree, known]
    decide

end LoopTable

end RangeFlow
