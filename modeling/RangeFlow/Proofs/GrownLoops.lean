import Mathlib.Data.Finset.Card
import RangeFlow.Graph.LoopGrowth
import RangeFlow.Proofs.DominatorTree

/-! # Loops as they are grown

The growth of a body ends, since every node that is put in is a new node of the graph. It puts in
the nodes from which a way leads to the latch around the header. Adding latch after latch, the loops
are those that are read off all latches of a header at once.
-/

namespace RangeFlow

namespace LoopGrowth

variable {g : Graph} {header latch : Nat} {start : IdSet}

/-- While a body is grown from a latch, what is in it or waits was in it from the start or has a way
    to the latch, and what is missing waits. -/
structure Growing (g : Graph) (header latch : Nat) (start body : IdSet) (stack : List Nat) :
    Prop where
  origin : ∀ n, n ∈ body ∨ n ∈ stack → n ∈ start ∨ g.Way [header] n latch
  kept : ∀ n ∈ start, n ∈ body
  latch : latch ∈ body ∨ latch ∈ stack
  closed : ∀ n ∈ body, n ≠ header → ∀ p, (p, n) ∈ g.edges → p = header ∨ p ∈ body ∨ p ∈ stack

namespace Growing

variable {body : IdSet} {node : Nat} {rest : List Nat}

/-- A node that is in already is taken off the stack. -/
theorem skip (h : Growing g header latch start body (node :: rest)) (known : node ∈ body) :
    Growing g header latch start body rest where
  origin := fun n here => h.origin n (here.imp_right (List.mem_cons_of_mem node))
  kept := h.kept
  latch := by
    rcases h.latch with inside | waits
    · exact .inl inside
    · rcases List.mem_cons.mp waits with same | waits
      · exact .inl (same ▸ known)
      · exact .inr waits
  closed := by
    intro n hn other p edge
    rcases h.closed n hn other p edge with same | inside | waits
    · exact .inl same
    · exact .inr (.inl inside)
    · rcases List.mem_cons.mp waits with same | waits
      · exact .inr (.inl (same ▸ known))
      · exact .inr (.inr waits)

/-- A new node on the stack has a way to the latch. -/
theorem way_of_new (h : Growing g header latch start body (node :: rest)) (new : node ∉ body) :
    g.Way [header] node latch :=
  (h.origin node (.inr (List.mem_cons_self ..))).resolve_left fun old => new (h.kept node old)

/-- A new node is put in, and its predecessors wait. -/
theorem put (h : Growing g header latch start body (node :: rest)) (new : node ∉ body) :
    Growing g header latch start (body.insert node)
      (((g.preds node).filter fun p => p != header && !(body.insert node).contains p).reverse ++
        rest) where
  origin := by
    intro n here
    rw [IdSet.mem_insert, List.mem_append, List.mem_reverse, List.mem_filter, Graph.mem_preds,
      Bool.and_eq_true, bne_iff_ne] at here
    rcases here with (rfl | inside) | ⟨edge, other, -⟩ | waits
    · exact .inr (h.way_of_new new)
    · exact h.origin n (.inl inside)
    · exact .inr ((h.way_of_new new).head edge (by simpa using other))
    · exact h.origin n (.inr (List.mem_cons_of_mem node waits))
  kept := fun n old => IdSet.mem_insert.mpr (.inr (h.kept n old))
  latch := by
    rcases h.latch with inside | waits
    · exact .inl (IdSet.mem_insert.mpr (.inr inside))
    · rcases List.mem_cons.mp waits with same | waits
      · exact .inl (IdSet.mem_insert.mpr (.inl same))
      · exact .inr (List.mem_append_right _ waits)
  closed := by
    intro n hn other p edge
    by_cases atHeader : p = header
    · exact .inl atHeader
    by_cases inside : p ∈ body.insert node
    · exact .inr (.inl inside)
    refine .inr (.inr (List.mem_append.mpr ?_))
    rw [IdSet.mem_insert, not_or] at inside
    rcases IdSet.mem_insert.mp hn with rfl | old
    · refine .inl (List.mem_reverse.mpr (List.mem_filter.mpr ⟨Graph.mem_preds.mpr edge, ?_⟩))
      simp [atHeader, IdSet.contains, inside]
    · have waits := (h.closed n old other p edge).resolve_left atHeader |>.resolve_left inside.2
      exact .inr ((List.mem_cons.mp waits).resolve_left inside.1)

/-- With nothing left on the stack, everything with a way to the latch is in. -/
theorem mem_iff (h : Growing g header latch start body []) (n : Nat) :
    n ∈ body ↔ n ∈ start ∨ g.Way [header] n latch := by
  refine ⟨fun inside => h.origin n (.inl inside), fun either => ?_⟩
  rcases either with old | way
  · exact h.kept n old
  · have last : latch ∈ body := h.latch.resolve_right List.not_mem_nil
    refine way.rec_edges (motive := fun v => v ∈ body → n ∈ body) (fun _ _ => id) ?_ last
    intro u v before ih edge free inside
    have ahead : u ≠ header := fun same => before.not_mem (List.mem_singleton.mpr same)
    have earlier := (h.closed v inside (by simpa using free) u edge).resolve_left ahead
    exact ih (earlier.resolve_right List.not_mem_nil)

end Growing

/-- The nodes of the graph that are not in a body. -/
def missing (g : Graph) (body : IdSet) : Finset Nat := (Finset.range g.size).filter (· ∉ body)

theorem missing_insert {body : IdSet} {node : Nat} (inside : node < g.size) (new : node ∉ body) :
    (missing g (body.insert node)).card < (missing g body).card := by
  refine Finset.card_lt_card (Finset.ssubset_iff_of_subset ?_ |>.mpr ⟨node, ?_, ?_⟩)
  · refine Finset.monotone_filter_right _ fun n _ absent => ?_
    exact fun member => absent (IdSet.mem_insert.mpr (.inr member))
  · exact Finset.mem_filter.mpr ⟨Finset.mem_range.mpr inside, new⟩
  · exact fun member => (Finset.mem_filter.mp member).2 (IdSet.mem_insert.mpr (.inl rfl))

theorem mem_grow_nil {body : IdSet} : body ∈ grow g header body [] :=
  PFun.fix_stop (Part.mem_some_iff.mpr rfl)

section Cons

variable {body : IdSet} {node : Nat} {rest : List Nat}

theorem grow_known (known : node ∈ body) :
    grow g header body (node :: rest) = grow g header body rest := by
  have known : body.contains node = true := decide_eq_true known
  apply PFun.fix_fwd_eq
  rw [Part.mem_some_iff, growStep, if_pos known]

theorem grow_new (new : node ∉ body) :
    grow g header body (node :: rest) = grow g header (body.insert node)
      (((g.preds node).filter fun p => p != header && !(body.insert node).contains p).reverse ++
        rest) := by
  have new : ¬ body.contains node = true := fun known => new (of_decide_eq_true known)
  apply PFun.fix_fwd_eq
  rw [Part.mem_some_iff, growStep, if_neg new]

end Cons

/-- The growth ends. -/
theorem grow_spec {body : IdSet} {stack : List Nat} (h : Growing g header latch start body stack) :
    ∃ final ∈ grow g header body stack, ∀ n, n ∈ final ↔ n ∈ start ∨ g.Way [header] n latch := by
  match stack with
  | [] => exact ⟨body, mem_grow_nil, h.mem_iff⟩
  | node :: rest =>
      by_cases known : node ∈ body
      · rw [grow_known known]
        exact grow_spec (h.skip known)
      · rw [grow_new known]
        exact grow_spec (h.put known)
termination_by ((missing g body).card, stack.length)
decreasing_by
  · exact Prod.Lex.right _ (by simp)
  · exact Prod.Lex.left _ _ (missing_insert (h.way_of_new known).free_left.1 known)

/-- A latch that is known is not added again. -/
theorem mem_withLatch {latches : List Nat} {n : Nat} :
    n ∈ (if latches.contains latch then latches else latches ++ [latch]) ↔
      n ∈ latches ∨ n = latch := by
  split
  · next known =>
      refine ⟨.inl, fun either => either.elim id ?_⟩
      rintro rfl
      exact List.contains_iff_mem.mp known
  · rw [List.mem_append, List.mem_singleton]

/-- The body of a loop is the header and what has a way to a latch around it. -/
def HasBody (g : Graph) (l : NaturalLoop) : Prop :=
  ∀ b, b ∈ l.body ↔ b = l.header ∨ ∃ n ∈ l.latches, g.Way [l.header] b n

/-- A loop with a new latch has the body that belongs to its latches. -/
theorem addLatch_spec {l : NaturalLoop} (h : HasBody g l) (inside : latch < g.size) :
    ∃ m ∈ addLatch g l latch, HasBody g m ∧
      m = { l with
        body := m.body
        latches := if l.latches.contains latch then l.latches else l.latches ++ [latch] } := by
  have first : latch ∈ l.body ∨ g.Way [l.header] latch latch := by
    by_cases same : latch = l.header
    · exact .inl ((h latch).mpr (.inl same))
    · exact .inr (.refl inside (by simpa using same))
  have growing : Growing g l.header latch l.body l.body [latch] := by
    refine ⟨?_, fun _ => id, .inr (List.mem_singleton.mpr rfl), fun n hn other p edge => ?_⟩
    · rintro n (old | waits)
      · exact .inl old
      · exact (List.mem_singleton.mp waits) ▸ first
    · obtain ⟨m, hm, way⟩ := ((h n).mp hn).resolve_left other
      refine or_iff_not_imp_left.mpr fun ahead => .inl ((h p).mpr (.inr ⟨m, hm, ?_⟩))
      exact way.head edge (by simpa using ahead)
  obtain ⟨body, run, spec⟩ := grow_spec growing
  refine ⟨_, Part.mem_map _ run, fun b => ?_, rfl⟩
  simp only [spec, h b, mem_withLatch, or_assoc, or_and_right, exists_or, exists_eq_left]

variable {t : DominatorTree} {done : List (Nat × Nat)} {loops : Array (Option NaturalLoop)}

/-- The loop of a header as far as it is known from some of the edges. -/
structure Known (g : Graph) (t : DominatorTree) (edges : List (Nat × Nat)) (header : Nat)
    (l : NaturalLoop) : Prop where
  shape : l = { NaturalLoop.ofHeader header with body := l.body, latches := l.latches }
  ascending : l.latches.Pairwise (· < ·)
  latches : ∀ n, n ∈ l.latches ↔ (n, header) ∈ edges ∧ t.dominates header n = true
  body : HasBody g l

theorem Known.header_eq {l : NaturalLoop} (h : Known g t done header l) : l.header = header := by
  rw [h.shape]
  rfl

theorem known_nil : Known g t [] header (.ofHeader header) where
  shape := rfl
  ascending := .nil
  latches := by simp [NaturalLoop.ofHeader]
  body := by simp [HasBody, NaturalLoop.ofHeader]

/-- An edge to another node, or to one that does not dominate its source, tells nothing. -/
theorem Known.skip {l : NaturalLoop} {edge : Nat × Nat} (h : Known g t done header l)
    (other : edge.2 = header → t.dominates header edge.1 = false) :
    Known g t (done ++ [edge]) header l where
  shape := h.shape
  ascending := h.ascending
  latches := by
    intro n
    rw [h.latches, List.mem_append, List.mem_singleton]
    refine and_congr_left fun dominates => (or_iff_left ?_).symm
    rintro rfl
    rw [other rfl] at dominates
    cases dominates
  body := h.body

/-- An edge back to the header adds a latch. -/
theorem Known.add {l : NaturalLoop} {node : Nat} (h : Known g t done header l)
    (inside : node < g.size) (dominates : t.dominates header node = true)
    (ordered : ∀ e ∈ done, e.1 ≤ node) :
    ∃ m ∈ addLatch g l node, m.latches ≠ [] ∧
      Known g t (done ++ [(node, header)]) header m := by
  obtain ⟨m, run, body, shape⟩ := addLatch_spec h.body inside
  have latches : m.latches =
      if l.latches.contains node then l.latches else l.latches ++ [node] := by
    rw [shape]
  have members : ∀ n, n ∈ m.latches ↔ n ∈ l.latches ∨ n = node := by
    intro n
    rw [latches, mem_withLatch]
  refine ⟨m, run, List.ne_nil_of_mem ((members node).mpr (.inr rfl)), ?_, ?_, fun n => ?_, body⟩
  · rw [shape]
    conv_lhs => rw [h.shape]
  · rw [latches]
    split
    · exact h.ascending
    · next new =>
        refine List.pairwise_append.mpr ⟨h.ascending, List.pairwise_singleton _ _, ?_⟩
        intro n hn k hk
        rw [List.mem_singleton.mp hk]
        refine Nat.lt_of_le_of_ne (ordered _ ((h.latches n).mp hn).1) ?_
        rintro rfl
        exact new (List.contains_iff_mem.mpr hn)
  · rw [members, h.latches, List.mem_append, List.mem_singleton, Prod.mk.injEq]
    constructor
    · rintro (⟨old, dominated⟩ | rfl)
      · exact ⟨.inl old, dominated⟩
      · exact ⟨.inr ⟨rfl, rfl⟩, dominates⟩
    · rintro ⟨old | ⟨rfl, -⟩, dominated⟩
      · exact .inl ⟨old, dominated⟩
      · exact .inr rfl

/-- For each node the loop as far as it is known is kept, if it has a latch. -/
def Keeps (g : Graph) (t : DominatorTree) (edges : List (Nat × Nat))
    (loops : Array (Option NaturalLoop)) : Prop :=
  loops.size = g.size ∧ ∀ h < g.size, ∃ l, Known g t edges h l ∧
    loops[h]? = some (if l.latches = [] then none else some l)

theorem noteEdge_keeps {edge : Nat × Nat} (keeps : Keeps g t done loops) (member : edge ∈ g.edges)
    (ordered : ∀ e ∈ done, e.1 ≤ edge.1) :
    ∃ next ∈ noteEdge g t loops edge, Keeps g t (done ++ [edge]) next := by
  obtain ⟨node, succ⟩ := edge
  obtain ⟨size, each⟩ := keeps
  unfold noteEdge
  dsimp only
  by_cases dominates : t.dominates succ node = true
  · have bound := (g.inRange _ member).2
    obtain ⟨l, known, found⟩ := each succ bound
    obtain ⟨m, run, latched, known'⟩ := known.add (g.inRange _ member).1 dominates ordered
    have current : (loops.getD succ none).getD (.ofHeader succ) = l := by
      rw [Array.getD_eq_getD_getElem?, found]
      by_cases fresh : l.latches = []
      · have bare : l.body = .singleton l.header := by
          refine IdSet.eq_of_mem_iff fun b => ?_
          rw [known.body b, fresh]
          simp
        rw [if_pos fresh, known.shape, bare, fresh, known.header_eq]
        rfl
      · rw [if_neg fresh]
        rfl
    refine ⟨loops.setIfInBounds succ (some m), ?_, by simpa using size, fun h inside => ?_⟩
    · rw [if_pos dominates, current]
      exact Part.mem_map _ run
    · by_cases same : h = succ
      · subst same
        exact ⟨m, known', by simp [size, inside, latched]⟩
      · obtain ⟨k, knownK, foundK⟩ := each h inside
        exact ⟨k, knownK.skip fun e => absurd e.symm same, by simp [Ne.symm same, foundK]⟩
  · refine ⟨loops, ?_, size, fun h inside => ?_⟩
    · rw [if_neg dominates]
      exact Part.mem_some _
    obtain ⟨k, knownK, foundK⟩ := each h inside
    refine ⟨k, knownK.skip fun same => ?_, foundK⟩
    rw [← same]
    exact Bool.not_eq_true _ ▸ dominates

theorem foldlM_noteEdge_keeps {rest : List (Nat × Nat)} (keeps : Keeps g t done loops)
    (members : ∀ e ∈ rest, e ∈ g.edges) (ordered : (done ++ rest).Pairwise fun e e' => e.1 ≤ e'.1) :
    ∃ next ∈ rest.foldlM (noteEdge g t) loops, Keeps g t (done ++ rest) next := by
  induction rest generalizing done loops with
  | nil => exact ⟨loops, Part.mem_some _, by simpa using keeps⟩
  | cons edge rest ih =>
      obtain ⟨here, later⟩ := List.forall_mem_cons.mp members
      have before : ∀ e ∈ done, e.1 ≤ edge.1 := fun e he =>
        (List.pairwise_append.mp ordered).2.2 e he edge (List.mem_cons_self ..)
      obtain ⟨middle, run, keeps'⟩ := noteEdge_keeps keeps here before
      obtain ⟨next, run', keeps''⟩ := ih keeps' later (by simpa using ordered)
      refine ⟨next, ?_, by simpa using keeps''⟩
      rw [List.foldlM_cons]
      exact Part.mem_bind run run'

theorem mem_edgesInReach {n h : Nat} :
    (n, h) ∈ edgesInReach g t ↔ t.isReachable n = true ∧ (n, h) ∈ g.edges := by
  simp only [edgesInReach, List.mem_flatMap, List.mem_filter, List.mem_range, List.mem_map,
    Prod.mk.injEq, Graph.mem_succs]
  constructor
  · rintro ⟨m, ⟨-, reachable⟩, k, edge, rfl, rfl⟩
    exact ⟨reachable, edge⟩
  · rintro ⟨reachable, edge⟩
    exact ⟨n, ⟨(g.inRange _ edge).1, reachable⟩, h, edge, rfl, rfl⟩

theorem pairwise_edgesInReach : (edgesInReach g t).Pairwise fun e e' => e.1 ≤ e'.1 := by
  rw [edgesInReach, List.pairwise_flatMap]
  constructor
  · intro n _
    rw [List.pairwise_map]
    exact List.pairwise_of_forall fun _ _ => Nat.le_refl n
  · refine (List.pairwise_lt_range.filter _).imp ?_
    intro n m less e he e' he'
    obtain ⟨_, -, rfl⟩ := List.mem_map.mp he
    obtain ⟨_, -, rfl⟩ := List.mem_map.mp he'
    exact Nat.le_of_lt less

theorem mem_latchesOf {n h : Nat} : n ∈ LoopForest.latchesOf g t h ↔
    (n, h) ∈ edgesInReach g t ∧ t.dominates h n = true := by
  rw [LoopForest.latchesOf, List.mem_filter, List.mem_range, Bool.and_eq_true, Bool.and_eq_true,
    List.contains_iff_mem, Graph.mem_preds, mem_edgesInReach]
  constructor
  · rintro ⟨-, reachable, dominates⟩
    exact ⟨reachable, dominates⟩
  · rintro ⟨reachable, dominates⟩
    exact ⟨(g.inRange _ reachable.2).1, reachable, dominates⟩

theorem mem_bodyOf {b h : Nat} {latches : List Nat} :
    b ∈ LoopForest.bodyOf g.reverse.table h latches ↔
      b < g.size ∧ (b = h ∨ ∃ n ∈ latches, g.Way [h] b n) := by
  have size : g.reverse.table.size = g.size := Graph.size_table
  have back : ∀ n, Graph.Joined g.reverse.table (fun k => k < g.size ∧ k ∉ [h]) n b ↔
      g.Way [h] b n := fun n => Graph.way_reverse
  change b ∈ (List.range g.reverse.table.size).filter _ ↔ _
  rw [List.mem_filter, List.mem_range, Graph.mark_getD, List.mem_cons, Graph.mem_searchAvoiding,
    size]
  simp only [back]
  tauto

/-- A loop that is known from all edges is the loop that is read off its latches. -/
theorem Known.naturalLoop?_eq {l : NaturalLoop} {h : Nat} (known : Known g t (edgesInReach g t) h l)
    (inside : h < g.size) : LoopForest.naturalLoop? g g.reverse.table t h =
      (if l.latches = [] then none else some l).map (withBorder g) := by
  have latches : LoopForest.latchesOf g t h = l.latches :=
    IdSet.list_eq_of_mem_iff (List.pairwise_lt_range.filter _) known.ascending fun n => by
      rw [mem_latchesOf, known.latches]
  have body : LoopForest.bodyOf g.reverse.table h l.latches = l.body := by
    refine IdSet.eq_of_mem_iff fun b => ?_
    rw [mem_bodyOf, known.body b, known.header_eq]
    refine and_iff_right_of_imp ?_
    rintro (rfl | ⟨n, -, way⟩)
    · exact inside
    · exact way.free_left.1
  rw [LoopForest.naturalLoop?, latches]
  cases parts : l.latches with
  | nil => rfl
  | cons n rest =>
      have shape : l = ⟨h, l.body, n :: rest, none, [], 0, none⟩ := parts ▸ known.shape
      rw [parts] at body
      simp only [reduceCtorEq, if_false, body, Option.map_some, withBorder]
      rw [shape]

/-- The loops that are grown edge by edge are the loops that are read off the latches. -/
theorem byHeader_eq (g : Graph) (t : DominatorTree) :
    ∃ found ∈ byHeader g t, (found.toList.filterMap id).map (withBorder g) =
      (List.range g.size).filterMap (LoopForest.naturalLoop? g g.reverse.table t) := by
  have start : Keeps g t [] (Array.replicate g.size none) := by
    refine ⟨by simp, fun h inside => ⟨.ofHeader h, known_nil, ?_⟩⟩
    simp [inside, NaturalLoop.ofHeader]
  obtain ⟨found, run, size, each⟩ := foldlM_noteEdge_keeps start
    (fun e he => (mem_edgesInReach.mp he).2) pairwise_edgesInReach
  refine ⟨found, run, ?_⟩
  have listed : found.toList = (List.range g.size).map fun h => found.getD h none := by
    refine List.ext_getElem (by simp [size]) fun h inside _ => ?_
    simp [Array.getD, show h < found.size by simpa using inside]
  rw [listed, List.filterMap_map, List.map_filterMap]
  refine List.filterMap_congr fun h member => ?_
  obtain ⟨l, known, here⟩ := each h (List.mem_range.mp member)
  rw [known.naturalLoop?_eq (List.mem_range.mp member)]
  simp [Array.getD_eq_getD_getElem?, here]

end LoopGrowth

end RangeFlow
