import Mathlib.Data.Set.Card
import RangeFlow.Proofs.Sweeps

/-! # Immediate dominators

The iteration ends for every graph and every entry. The parent of a node is then its nearest strict
dominator, and climbing from a node one meets its dominators and nothing else.
-/

namespace RangeFlow

namespace Graph

variable {g : Graph} {start a b : Nat} {avoid : List Nat}

/-- A path from the start passes these nodes, the last one first. -/
inductive Path (g : Graph) (start : Nat) : Nat → List Nat → Prop where
  | start (inside : start < g.size) : Path g start start [start]
  | step {u v : Nat} {nodes : List Nat} (path : Path g start u nodes) (edge : (u, v) ∈ g.edges) :
      Path g start v (v :: nodes)

/-- Some path leads to the node. -/
def Reaches (g : Graph) (start b : Nat) : Prop := ∃ nodes, g.Path start b nodes

/-- Every path from the start to the second node passes the first one. -/
def Dominates (g : Graph) (start a b : Nat) : Prop := ∀ nodes, g.Path start b nodes → a ∈ nodes

/-- Every path from the start to the second node passes the first one, which is another one. -/
def StrictlyDominates (g : Graph) (start a b : Nat) : Prop := a ≠ b ∧ g.Dominates start a b

/-- The ways that avoid some nodes are those along a path. -/
theorem way_iff_path : g.Way avoid start b ↔
    ∃ nodes, g.Path start b nodes ∧ ∀ d ∈ avoid, d ∉ nodes := by
  constructor
  · intro way
    refine way.rec_edges (motive := fun b =>
      ∃ nodes, g.Path start b nodes ∧ ∀ d ∈ avoid, d ∉ nodes) ?_ ?_
    · intro inside free
      refine ⟨[start], .start inside, fun d member => ?_⟩
      rw [List.mem_singleton]
      rintro rfl
      exact free member
    · rintro u v - ⟨nodes, path, avoids⟩ edge free
      refine ⟨v :: nodes, path.step edge, fun d member => ?_⟩
      rw [List.mem_cons, not_or]
      refine ⟨?_, avoids d member⟩
      rintro rfl
      exact free member
  · rintro ⟨nodes, path, avoids⟩
    induction path with
    | start inside =>
        exact .refl inside fun member => avoids _ member (List.mem_cons_self ..)
    | step path edge ih =>
        have before := ih fun d member passed => avoids d member (List.mem_cons_of_mem _ passed)
        exact before.tail edge fun member => avoids _ member (List.mem_cons_self ..)

/-- A path passes the node that it leads to. -/
theorem Path.mem {nodes : List Nat} (path : g.Path start b nodes) : b ∈ nodes := by
  cases path <;> exact List.mem_cons_self ..

theorem reaches_iff : g.Reaches start b ↔ g.Way [] start b := by
  simp [Reaches, way_iff_path]

theorem dominates_iff : g.Dominates start a b ↔ ¬ g.Way [a] start b := by
  simp [Dominates, way_iff_path]

theorem requires_iff (reached : g.Reaches start b) :
    g.Requires start a b ↔ g.StrictlyDominates start a b := by
  rw [Requires, StrictlyDominates, dominates_iff, ← reaches_iff]
  simp [reached]

/-- A node that can be reached is dominated by itself and by what is required for it. -/
theorem eq_or_requires_iff (reached : g.Reaches start b) :
    a = b ∨ g.Requires start a b ↔ g.Dominates start a b := by
  rw [requires_iff reached, StrictlyDominates]
  by_cases same : a = b
  · subst same
    exact iff_of_true (.inl rfl) fun _ path => path.mem
  · simp [same]

end Graph

theorem DominatorTree.depth_eq (g : Graph) (entry b : Nat) :
    (ofGraph g entry).depth b = {d | g.Requires entry d b}.ncard := by
  have members : {d | g.Requires entry d b} =
      (((ofGraph g entry).strictDominators b).toFinset : Set Nat) := by
    ext d
    simp [← strictlyDominates_iff, strictlyDominates]
  rw [members, Set.ncard_coe_finset, List.toFinset_card_of_nodup nodup_strictDominators]
  rfl

namespace ParentTree

variable {g : Graph} {entry : Nat} {order : List Nat} {parents : Array (Option Nat)}
  {depths : Array Nat} {a b d m n p q : Nat}

/-- The parents at the end of the iteration: every node that can be reached has one, and it is
    above all its predecessors. -/
structure Final (g : Graph) (entry : Nat) (order : List Nat) (parents : Array (Option Nat)) :
    Prop extends Linked g entry order parents where
  follows : g.Follows entry order
  filled : ∀ n ∈ order, (parentOf parents n).isSome
  above_pred : ∀ {p n q}, (p, n) ∈ g.edges → p ∈ order → n ≠ entry →
    parentOf parents n = some q → Above parents q p

/-- Parents that no visit would change are final. -/
theorem Linked.final (follows : g.Follows entry order) (h : Linked g entry order parents)
    (stable : ∀ n ∈ order.tail, Stable g order parents n) : Final g entry order parents := by
  have joins : ∀ {p n}, (p, n) ∈ g.edges → n ∈ order → n ≠ entry →
      (parentOf parents p).isSome →
        ∃ c, parentOf parents n = some c ∧ IsMeet parents (linkedPreds g parents n) c := by
    intro p n edge member other linked
    obtain ⟨c, found, meet⟩ := joinedParent_spec follows h edge linked
    have later : n ∈ order.tail := by
      rw [follows.eq_cons (List.ne_nil_of_mem member)] at member
      exact (List.mem_cons.mp member).resolve_left other
    obtain ⟨new, found', kept⟩ := stable n later
    cases Part.mem_unique found found'
    exact ⟨c, kept rfl, meet⟩
  have filled : ∀ n ∈ order, (parentOf parents n).isSome := by
    intro n member
    induction index : order.idxOf n using Nat.strongRecOn generalizing n with
    | ind i ih =>
        by_cases start : n = entry
        · rw [start, h.root (start ▸ member)]
          rfl
        · obtain ⟨p, member', edge, earlier⟩ := follows.exists_earlier member start
          obtain ⟨c, link, -⟩ := joins edge member start (ih _ (index ▸ earlier) p member' rfl)
          rw [link]
          rfl
  refine ⟨h, follows, filled, fun {p n q} edge member other link => ?_⟩
  obtain ⟨c, link', meet⟩ := joins edge (h.placed link) other (filled p member)
  rw [link] at link'
  cases link'
  exact meet.above p (mem_linkedPreds.mpr ⟨edge, filled p member⟩)

namespace Final

variable (h : Final g entry order parents)

include h

/-- A way that avoids a node does not lead to a node below it. -/
theorem not_above_of_way (way : g.Way [a] entry n) : ¬ Above parents a n := by
  refine way.rec_edges (motive := fun n => ¬ Above parents a n) ?_ ?_
  · rintro - free above
    exact free (List.mem_singleton.mpr (h.eq_entry above).symm)
  · intro u v before avoids edge free above
    have other : a ≠ v := fun same => free (List.mem_singleton.mpr same.symm)
    by_cases start : v = entry
    · exact other (start ▸ h.eq_entry (start ▸ above))
    · have member : u ∈ order := (h.follows.mem_iff u).mpr (before.mono (by simp))
      have member' : v ∈ order :=
        (h.follows.mem_iff v).mpr ((before.mono (by simp)).tail edge List.not_mem_nil)
      obtain ⟨q, link⟩ := Option.isSome_iff_exists.mp (h.filled v member')
      exact avoids ((above.parent other link).trans (h.above_pred edge member start link))

/-- Climbing from a node one meets the nodes that are required for it. -/
theorem above_iff (member : n ∈ order) :
    Above parents a n ↔ a = n ∨ g.Requires entry a n := by
  constructor
  · intro above
    by_cases same : a = n
    · exact .inl same
    · refine .inr ⟨(h.follows.mem_iff n).mp member, same, fun avoids => ?_⟩
      exact h.not_above_of_way avoids above
  · rintro (rfl | req)
    · exact .refl
    · exact h.above_of_requires (h.filled n member) req

/-- The parent is required, and all else that is required is required for the parent. -/
theorem requires_iff_parent (link : parentOf parents n = some p) (other : n ≠ entry) :
    g.Requires entry d n ↔ d = p ∨ g.Requires entry d p := by
  have member := h.placed link
  have below : p ≠ n := by
    rintro rfl
    exact Nat.lt_irrefl _ (h.climbs link other)
  have req : g.Requires entry p n := ((h.above_iff member).mp (.up link .refl)).resolve_left below
  refine ⟨h.required link other d, ?_⟩
  rintro (rfl | above)
  · exact req
  · exact above.trans req

end Final

/-- The depths of the nodes that have been counted: one more than that of the parent. -/
structure Counted (entry : Nat) (parents : Array (Option Nat)) (done : List Nat)
    (depths : Array Nat) : Prop where
  zero : ∀ m, m ∉ done ∨ m = entry → depths.getD m 0 = 0
  succ : ∀ m ∈ done, m ≠ entry → ∀ p, parentOf parents m = some p →
    depths.getD m 0 = depths.getD p 0 + 1

theorem getD_setIfInBounds {depth : Nat} (inside : n < depths.size) (m : Nat) :
    (depths.setIfInBounds n depth).getD m 0 = if m = n then depth else depths.getD m 0 := by
  by_cases same : m = n
  · subst same
    simp [Array.getD_eq_getD_getElem?, inside]
  · simp [Array.getD_eq_getD_getElem?, same, Ne.symm same]

/-- Counting a node after its parent. -/
theorem Counted.step {done rest : List Nat} (h : Final g entry order parents)
    (split : order = done ++ n :: rest) (other : n ≠ entry)
    (counted : Counted entry parents done depths) (inside : n < depths.size) :
    Counted entry parents (done ++ [n]) (countDepth parents depths n) := by
  have member : n ∈ order := split ▸ List.mem_append_cons_self
  obtain ⟨p, link⟩ := Option.isSome_iff_exists.mp (h.filled n member)
  have earlier : ∀ {m q}, m ∈ done ++ [n] → m ≠ entry → parentOf parents m = some q → q ≠ n := by
    rintro m q visited start link' rfl
    have climbs := h.climbs link' start
    rcases List.mem_append.mp visited with visited | same
    · have := (Graph.mem_first_iff h.follows.nodup split).mp visited
      omega
    · rw [List.mem_singleton.mp same] at climbs
      omega
  simp only [countDepth, link]
  refine ⟨fun m unseen => ?_, fun m visited start q link' => ?_⟩
  · rw [List.mem_append, List.mem_singleton, not_or] at unseen
    have apart : m ≠ n := by
      rintro rfl
      exact unseen.elim (fun new => new.2 rfl) other
    rw [getD_setIfInBounds inside, if_neg apart]
    exact counted.zero m (unseen.imp And.left id)
  · rw [getD_setIfInBounds inside, getD_setIfInBounds inside, if_neg (earlier visited start link')]
    by_cases same : m = n
    · subst same
      rw [link] at link'
      cases link'
      exact if_pos rfl
    · rw [if_neg same]
      exact counted.succ m (by simpa [same] using visited) start q link'

theorem size_countDepth : (countDepth parents depths n).size = depths.size := by
  unfold countDepth
  split
  · exact Array.size_setIfInBounds
  · rfl

theorem foldl_countDepth {done rest : List Nat} (h : Final g entry order parents)
    (split : order = done ++ rest) (start : entry ∈ done) (size : depths.size = g.size)
    (counted : Counted entry parents done depths) :
    Counted entry parents order (rest.foldl (countDepth parents) depths) := by
  induction rest generalizing done depths with
  | nil =>
      rw [List.append_nil] at split
      exact split ▸ counted
  | cons n rest ih =>
      have member : n ∈ order := split ▸ List.mem_append_cons_self
      have inside : n < depths.size := size ▸ ((h.follows.mem_iff n).mp member).lt_size
      have other := h.follows.ne_entry split start
      exact ih (by simpa using split) (List.mem_append_left _ start)
        (size_countDepth.trans size) (counted.step h split other inside)

theorem counted_depthsOf (h : Final g entry order parents) :
    Counted entry parents order (depthsOf g.size order parents) := by
  have nothing : ∀ m, (Array.replicate g.size 0).getD m 0 = 0 := by
    intro m
    by_cases inside : m < g.size <;> simp [Array.getD, inside]
  by_cases empty : order = []
  · subst empty
    exact ⟨fun m _ => nothing m, nofun⟩
  · have counted : Counted entry parents [entry] (Array.replicate g.size 0) :=
      ⟨fun m _ => nothing m, fun m same start => absurd (List.mem_singleton.mp same) start⟩
    exact foldl_countDepth h (h.follows.eq_cons empty) (List.mem_singleton.mpr rfl)
      Array.size_replicate counted

theorem comesTo_of_up {t : ParentTree} (up : t.climbTo a n = .inr p) :
    t.comesTo a n = t.comesTo a p :=
  PFun.fix_fwd_eq (Part.mem_some_iff.mpr up.symm)

theorem mem_comesTo_of_stop {t : ParentTree} {answer : Bool} (stop : t.climbTo a n = .inl answer) :
    answer ∈ t.comesTo a n :=
  PFun.fix_stop (Part.mem_some_iff.mpr stop.symm)

/-- A tree with final parents and their depths. -/
structure Complete (g : Graph) (entry : Nat) (order : List Nat) (t : ParentTree) : Prop
    extends Final g entry order t.parents where
  entry_eq : t.entry = entry
  counted : Counted entry t.parents order t.depths

/-- The iteration ends. -/
theorem exists_complete (g : Graph) (entry : Nat) : ∃ t ∈ ofGraph g entry,
    Complete g entry (g.reversePostorder entry) t := by
  have follows := Graph.follows_reversePostorder g entry
  obtain ⟨parents, found, settled, stable⟩ := settle_spec follows (settled_initial follows)
  have final := settled.toLinked.final follows stable
  exact ⟨_, Part.mem_map _ found, final, rfl, counted_depthsOf final⟩

namespace Complete

variable {t : ParentTree} (h : Complete g entry order t)

include h

theorem isReachable_iff : t.isReachable b = true ↔ b ∈ order := by
  refine ⟨fun reached => ?_, h.filled b⟩
  obtain ⟨p, link⟩ := Option.isSome_iff_exists.mp reached
  exact h.placed link

theorem immediate?_eq (other : b ≠ entry) : t.immediate? b = parentOf t.parents b := by
  rw [immediate?, h.entry_eq, if_neg other]

theorem depth_eq_succ (link : parentOf t.parents n = some p) (other : n ≠ entry) :
    t.depth n = t.depth p + 1 :=
  h.counted.succ n (h.placed link) other p link

theorem depth_lt (above : Above t.parents a n) (apart : a ≠ n) : t.depth a < t.depth n := by
  induction above with
  | refl => exact absurd rfl apart
  | @up n p link above ih =>
      by_cases start : n = entry
      · subst start
        rw [h.parent_entry link] at above
        exact absurd (h.eq_entry above) apart
      · have next := h.depth_eq_succ link start
        by_cases same : a = p
        · subst same
          omega
        · have := ih same
          omega

/-- Climbing to the depth of a node, one comes to it exactly if it is above. -/
theorem comesTo_spec (member : n ∈ order) :
    ∃ answer ∈ t.comesTo a n, (answer = true ↔ Above t.parents a n) := by
  induction index : order.idxOf n using Nat.strongRecOn generalizing n with
  | ind i ih =>
      obtain ⟨p, link⟩ := Option.isSome_iff_exists.mp (h.filled n member)
      by_cases deeper : t.depth a < t.depth n
      · have other : n ≠ entry := by
          intro start
          have := h.counted.zero n (.inr start)
          unfold depth at deeper
          omega
        have apart : a ≠ n := by
          rintro rfl
          exact Nat.lt_irrefl _ deeper
        have up : t.climbTo a n = .inr p := by
          rw [climbTo, if_pos deeper, h.immediate?_eq other, link]
        obtain ⟨answer, found, correct⟩ :=
          ih _ (index ▸ h.climbs link other) (h.parent_mem link) rfl
        rw [comesTo_of_up up]
        exact ⟨answer, found, correct.trans ⟨.up link, fun above => above.parent apart link⟩⟩
      · have stop : t.climbTo a n = .inl (n == a) := if_neg deeper
        refine ⟨_, mem_comesTo_of_stop stop, ?_⟩
        rw [beq_iff_eq]
        constructor
        · rintro rfl
          exact .refl
        · intro above
          by_contra apart
          exact deeper (h.depth_lt above (Ne.symm apart))

/-- The depth of a node is the number of nodes that are required for it. -/
theorem depth_eq (member : n ∈ order) : t.depth n = {d | g.Requires entry d n}.ncard := by
  induction index : order.idxOf n using Nat.strongRecOn generalizing n with
  | ind i ih =>
      by_cases start : n = entry
      · subst start
        have none : {d | g.Requires n d n} = ∅ := by
          ext d
          simpa using not_requires_entry
        rw [none, Set.ncard_empty]
        exact h.counted.zero n (.inr rfl)
      · obtain ⟨p, link⟩ := Option.isSome_iff_exists.mp (h.filled n member)
        have split : {d | g.Requires entry d n} = insert p {d | g.Requires entry d p} := by
          ext d
          exact h.requires_iff_parent link start
        have new : p ∉ {d | g.Requires entry d p} := fun req => req.2.1 rfl
        have finite : {d | g.Requires entry d p}.Finite :=
          (Set.finite_lt_nat g.size).subset fun d req => req.reached.lt_size
        rw [split, Set.ncard_insert_of_notMem new finite, h.depth_eq_succ link start,
          ih _ (index ▸ h.climbs link start) (h.parent_mem link) rfl]

/-- A node dominates another if it is required for it, and itself. -/
theorem dominates_spec (a b : Nat) :
    ∃ answer ∈ t.dominates a b, (answer = true ↔ a = b ∨ g.Requires entry a b) := by
  rw [dominates]
  by_cases same : a = b
  · rw [if_pos same]
    exact ⟨true, Part.mem_some _, iff_of_true rfl (.inl same)⟩
  rw [if_neg same]
  by_cases both : a ∈ order ∧ b ∈ order
  · obtain ⟨answer, found, correct⟩ := h.comesTo_spec (a := a) both.2
    rw [if_neg (by simp [h.isReachable_iff, both])]
    exact ⟨answer, found, correct.trans (h.above_iff both.2)⟩
  · have apart : ¬ g.Requires entry a b := fun req =>
      both ⟨(h.follows.mem_iff a).mpr req.reached, (h.follows.mem_iff b).mpr req.1⟩
    rw [if_pos (by simpa [← h.isReachable_iff, Classical.or_iff_not_imp_left] using both)]
    exact ⟨false, Part.mem_some _, iff_of_false Bool.false_ne_true (by simp [same, apart])⟩

theorem mem_iff_reaches : b ∈ order ↔ g.Reaches entry b :=
  (h.follows.mem_iff b).trans Graph.reaches_iff.symm

end Complete

/-- The answers of a tree are those that the paths from the entry determine. -/
structure Correct (t : ParentTree) (g : Graph) (entry : Nat) : Prop where
  isReachable : ∀ b, t.isReachable b = true ↔ g.Reaches entry b
  dominates : ∀ a b, g.Reaches entry a → g.Reaches entry b →
    ∃ answer ∈ t.dominates a b, (answer = true ↔ g.Dominates entry a b)
  /-- A node that cannot be reached dominates only itself, and only itself dominates it. -/
  dominates_apart : ∀ a b, ¬ (g.Reaches entry a ∧ g.Reaches entry b) →
    decide (a = b) ∈ t.dominates a b
  /-- The immediate dominator is the strict dominator that all others dominate. -/
  immediate : ∀ b, g.Reaches entry b → b ≠ entry → ∃ d, t.immediate? b = some d ∧
    g.StrictlyDominates entry d b ∧
      ∀ c, g.StrictlyDominates entry c b → c ≠ d → g.Dominates entry c d
  depth : ∀ b, g.Reaches entry b → t.depth b = {d | g.StrictlyDominates entry d b}.ncard

theorem Complete.correct {t : ParentTree} (h : Complete g entry order t) :
    t.Correct g entry where
  isReachable := fun b => h.isReachable_iff.trans h.mem_iff_reaches
  dominates := by
    intro a b _ reached
    obtain ⟨answer, found, correct⟩ := h.dominates_spec a b
    exact ⟨answer, found, correct.trans (Graph.eq_or_requires_iff reached)⟩
  dominates_apart := by
    intro a b apart
    obtain ⟨answer, found, correct⟩ := h.dominates_spec a b
    have free : ¬ g.Requires entry a b := fun req =>
      apart ⟨Graph.reaches_iff.mpr req.reached, Graph.reaches_iff.mpr req.1⟩
    have same : decide (a = b) = answer := by
      rw [Bool.eq_iff_iff, correct, decide_eq_true_eq]
      exact (or_iff_left free).symm
    exact same ▸ found
  immediate := by
    intro b reached other
    obtain ⟨p, link⟩ := Option.isSome_iff_exists.mp (h.filled b (h.mem_iff_reaches.mpr reached))
    have nearest (c : Nat) := h.requires_iff_parent (d := c) link other
    have reached' := h.mem_iff_reaches.mp (h.parent_mem link)
    refine ⟨p, (h.immediate?_eq other).trans link, ?_, fun c above _ => ?_⟩
    · exact (Graph.requires_iff reached).mp ((nearest p).mpr (.inl rfl))
    · have req := (Graph.requires_iff reached).mpr above
      exact (Graph.eq_or_requires_iff reached').mp ((nearest c).mp req)
  depth := by
    intro b reached
    rw [h.depth_eq (h.mem_iff_reaches.mpr reached)]
    simp only [Graph.requires_iff reached]

/-- The answers of a tree are those that the dominators of the graph give. -/
structure Agrees (t : ParentTree) (dominators : DominatorTree) : Prop where
  isReachable : ∀ b, t.isReachable b = dominators.isReachable b
  dominates : ∀ a b, dominators.dominates a b ∈ t.dominates a b
  immediate : ∀ b, t.immediate? b = dominators.immediate? b
  depth : ∀ b, t.depth b = dominators.depth b

theorem Complete.agrees {t : ParentTree} (h : Complete g entry order t) :
    t.Agrees (.ofGraph g entry) where
  isReachable := by
    intro b
    rw [Bool.eq_iff_iff, h.isReachable_iff, DominatorTree.isReachable_iff, h.follows.mem_iff]
  dominates := by
    intro a b
    obtain ⟨answer, found, correct⟩ := h.dominates_spec a b
    have same : (DominatorTree.ofGraph g entry).dominates a b = answer := by
      rw [Bool.eq_iff_iff, correct, DominatorTree.dominates, Bool.or_eq_true, beq_iff_eq,
        DominatorTree.strictlyDominates_iff]
    exact same ▸ found
  immediate := by
    intro b
    by_cases start : b = entry
    · subst start
      rw [DominatorTree.immediate?_eq_none fun d => not_requires_entry, immediate?, h.entry_eq,
        if_pos rfl]
    rw [h.immediate?_eq start]
    cases link : parentOf t.parents b with
    | some p =>
        have nearest (d : Nat) := h.requires_iff_parent (d := d) link start
        exact (DominatorTree.immediate?_eq_some ((nearest p).mpr (.inl rfl)) fun d =>
          (nearest d).mp).symm
    | none =>
        refine (DominatorTree.immediate?_eq_none fun d req => ?_).symm
        have linked := h.filled b ((h.follows.mem_iff b).mpr req.1)
        rw [link] at linked
        cases linked
  depth := by
    intro b
    rw [DominatorTree.depth_eq]
    by_cases member : b ∈ order
    · exact h.depth_eq member
    · have none : {d | g.Requires entry d b} = ∅ := by
        ext d
        exact iff_of_false (fun req => member ((h.follows.mem_iff b).mpr req.1)) id
      rw [none, Set.ncard_empty]
      exact h.counted.zero b (.inl member)

/-- For every graph and every entry the iteration ends, with a tree whose answers are right. They
    are those of the dominators that are computed from the ways around each node. -/
theorem iteration_correct (g : Graph) (entry : Nat) : ∃ t ∈ ofGraph g entry,
    t.Correct g entry ∧ t.Agrees (.ofGraph g entry) := by
  obtain ⟨t, found, complete⟩ := exists_complete g entry
  exact ⟨t, found, complete.correct, complete.agrees⟩

end ParentTree

end RangeFlow
