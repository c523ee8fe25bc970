import Mathlib.Algebra.Order.BigOperators.Group.List
import Mathlib.Algebra.Order.Group.Nat
import RangeFlow.Proofs.Ancestors

/-! # Sweeps

A sweep visits the nodes in order. A node that has a parent already is only ever lifted to an
ancestor of that parent, so that the ancestors of every node become fewer, and the sweeps end.

The new parent is an ancestor of the old one for two reasons. It does not come after the old one,
since the common ancestors of the predecessors have only become fewer. And it is above some
predecessor that comes before the node, over which the old parent stood at the beginning of the
sweep; what has been visited since then passes over no node in between, as long as it comes before
the old parent.
-/

namespace RangeFlow.ParentTree

variable {g : Graph} {entry : Nat} {order done rest : List Nat}
  {before parents next : Array (Option Nat)} {a b c m n p q z : Nat}

/-- The parent of the node is above its predecessors that come before it. -/
def Closed (g : Graph) (order : List Nat) (parents : Array (Option Nat)) (n : Nat) : Prop :=
  ∀ p q, (p, n) ∈ g.edges → order.idxOf p < order.idxOf n → parentOf parents n = some q →
    Above parents q p

/-- No common ancestor of the linked predecessors comes after the parent of the node. -/
def Bounded (g : Graph) (order : List Nat) (parents : Array (Option Nat)) (n : Nat) : Prop :=
  ∀ q z, parentOf parents n = some q → (∀ p ∈ linkedPreds g parents n, Above parents z p) →
    order.idxOf z ≤ order.idxOf q

/-- The place of the parent in the order. A node without a parent has the whole order to climb. -/
def height (order : List Nat) (parents : Array (Option Nat)) (n : Nat) : Nat :=
  match parentOf parents n with
  | some p => order.idxOf p
  | none => order.length

/-- The parents between two sweeps. -/
structure Settled (g : Graph) (entry : Nat) (order : List Nat) (parents : Array (Option Nat)) :
    Prop extends Linked g entry order parents where
  closed : ∀ n, Closed g order parents n
  bounded : ∀ n, n ≠ entry → Bounded g order parents n

/-- The parents during a sweep that has visited some nodes, and the parents at its beginning. -/
structure Sweeping (g : Graph) (entry : Nat) (order : List Nat)
    (before parents : Array (Option Nat)) (done : List Nat) : Prop
    extends Linked g entry order parents where
  kept : ∀ n, n ∉ done → parentOf parents n = parentOf before n
  filled : ∀ n ∈ done, (parentOf parents n).isSome
  closed : ∀ n ∈ done, Closed g order parents n
  bounded : ∀ n, n ≠ entry → Bounded g order parents n
  lifted : ∀ n, height order parents n ≤ height order before n

section Visit

variable (follows : g.Follows entry order) (split : order = done ++ n :: rest) (other : n ≠ entry)

include follows split

/-- The predecessor that comes before a visited node has been visited. -/
theorem exists_visited (visited : a ∈ done) (other : a ≠ entry) :
    ∃ m ∈ done, (m, a) ∈ g.edges ∧ order.idxOf m < order.idxOf a := by
  have member : a ∈ order := by
    rw [split]
    exact List.mem_append_left _ visited
  obtain ⟨m, -, edge, earlier⟩ := follows.exists_earlier member other
  have := (Graph.mem_first_iff follows.nodup split).mp visited
  exact ⟨m, (Graph.mem_first_iff follows.nodup split).mpr (by omega), edge, earlier⟩

/-- What is above a visited node, and does not come after an ancestor that it had at the beginning
    of the sweep, is above that ancestor. -/
theorem Sweeping.above_of_above (ready : Settled g entry order before)
    (s : Sweeping g entry order before parents done) (visited : a ∈ done)
    (was : Above before b a) (above : Above parents z a) (le : order.idxOf z ≤ order.idxOf b) :
    Above parents z b := by
  induction index : order.idxOf a using Nat.strongRecOn generalizing a with
  | ind i ih =>
      by_cases same : b = a
      · exact same ▸ above
      have start : a ≠ entry := by
        rintro rfl
        exact same (ready.eq_entry was)
      obtain ⟨m, visited', edge, earlier⟩ := exists_visited follows split visited start
      obtain ⟨p₀, link₀⟩ : ∃ p₀, parentOf before a = some p₀ := by
        cases was with
        | refl => exact absurd rfl same
        | up link _ => exact ⟨_, link⟩
      have was' : Above before b m :=
        (was.parent same link₀).trans (ready.closed a m p₀ edge earlier link₀)
      have below : z ≠ a := by
        rintro rfl
        have := ready.idxOf_le was'
        omega
      obtain ⟨p, link⟩ := Option.isSome_iff_exists.mp (s.filled a visited)
      have above' : Above parents z m :=
        (above.parent below link).trans (s.closed a visited m p edge earlier link)
      exact ih _ (index ▸ earlier) visited' was' above' rfl

include other

/-- The new parent of a node is above the old one. -/
theorem Sweeping.lift (ready : Settled g entry order before)
    (s : Sweeping g entry order before parents done)
    (meet : IsMeet parents (linkedPreds g parents n) c) (link : parentOf parents n = some q) :
    Above parents c q := by
  have new : n ∉ done := fun visited => by
    have := (Graph.mem_first_iff follows.nodup split).mp visited
    omega
  have member : n ∈ order := split ▸ List.mem_append_cons_self
  obtain ⟨m, -, edge, earlier⟩ := follows.exists_earlier member other
  have visited := (Graph.mem_first_iff follows.nodup split).mpr earlier
  have was : Above before q m := ready.closed n m q edge earlier (s.kept n new ▸ link)
  have above := meet.above m (mem_linkedPreds.mpr ⟨edge, s.filled m visited⟩)
  have le := s.bounded n other q c link meet.above
  exact s.above_of_above follows split ready visited was above le

end Visit

section Change

variable (h : Linked g entry order parents)
  (change : ∀ m, parentOf next m = if m = n then some c else parentOf parents m)

include h change

/-- A linked node has no new ancestors, if the changed node is lifted. -/
theorem above_of_lifted (lift : ∀ q, parentOf parents n = some q → Above parents c q)
    (linked : (parentOf parents m).isSome) (above : Above next z m) : Above parents z m := by
  induction above with
  | refl => exact .refl
  | @up m p link above ih =>
      rw [change] at link
      obtain ⟨q, old⟩ := Option.isSome_iff_exists.mp linked
      split at link
      · next same =>
          subst same
          cases link
          have above' := lift q old
          exact .up old ((ih (h.isSome_of_above above' (h.linked old))).trans above')
      · exact .up link (ih (h.linked link))

/-- A node that comes before the changed one keeps its ancestors. -/
theorem above_of_earlier (earlier : order.idxOf m < order.idxOf n) (above : Above parents z m) :
    Above next z m := by
  induction above with
  | refl => exact .refl
  | @up m p link above ih =>
      have le : order.idxOf p ≤ order.idxOf m := h.idxOf_le (.up link .refl)
      refine .up ?_ (ih (by omega))
      rw [change, if_neg (by rintro rfl; omega)]
      exact link

end Change

/-- What is required for a node is one of its predecessors, or required for it. -/
theorem requires_pred (req : g.Requires entry d n) (edge : (p, n) ∈ g.edges)
    (way : g.Way [] entry p) : d = p ∨ g.Requires entry d p := by
  by_cases same : d = p
  · exact .inl same
  · refine .inr ⟨way, same, fun avoids => req.2.2 (avoids.tail edge ?_)⟩
    simpa using req.2.1.symm

/-- What is required for a node is required for the nearest common ancestor of its linked
    predecessors, or is that ancestor. -/
theorem required_meet (follows : g.Follows entry order) (h : Linked g entry order parents)
    (meet : IsMeet parents (linkedPreds g parents n) c) (member : m ∈ linkedPreds g parents n)
    (req : g.Requires entry d n) : d = c ∨ g.Requires entry d c := by
  have each : ∀ p ∈ linkedPreds g parents n, d = p ∨ g.Requires entry d p := by
    intro p member
    obtain ⟨edge, linked⟩ := mem_linkedPreds.mp member
    obtain ⟨q, link⟩ := Option.isSome_iff_exists.mp linked
    exact requires_pred req edge ((follows.mem_iff p).mp (h.placed link))
  rcases h.required_above (meet.above m member) (each m member) with found | below
  · exact found
  · have above : Above parents d c := by
      refine meet.greatest d fun p member => ?_
      rcases each p member with rfl | req
      · exact .refl
      · exact h.above_of_requires (mem_linkedPreds.mp member).2 req
    exact .inl (h.antisymm above below)

section Step

variable (follows : g.Follows entry order) (split : order = done ++ n :: rest) (other : n ≠ entry)
  (ready : Settled g entry order before) (s : Sweeping g entry order before parents done)
  (meet : IsMeet parents (linkedPreds g parents n) c)
  (change : ∀ m, parentOf next m = if m = n then some c else parentOf parents m)

include follows split other s meet

/-- The new parent has a parent, and comes before the node. -/
theorem Sweeping.meet_placed : (∃ m ∈ linkedPreds g parents n, m ∈ done) ∧
    (parentOf parents c).isSome ∧ order.idxOf c < order.idxOf n := by
  have member : n ∈ order := split ▸ List.mem_append_cons_self
  obtain ⟨m, -, edge, earlier⟩ := follows.exists_earlier member other
  have visited := (Graph.mem_first_iff follows.nodup split).mpr earlier
  have linked := s.filled m visited
  have member := mem_linkedPreds.mpr ⟨edge, linked⟩
  have above := meet.above m member
  have := s.idxOf_le above
  exact ⟨⟨m, member, visited⟩, s.isSome_of_above above linked, by omega⟩

include change

theorem Sweeping.linked_step (size : next.size = parents.size) :
    Linked g entry order next := by
  obtain ⟨⟨m, member, -⟩, linkedC, earlier⟩ := s.meet_placed follows split other meet
  have below : c ≠ n := by
    rintro rfl
    omega
  have keeps : ∀ {p}, (parentOf parents p).isSome → (parentOf next p).isSome := by
    intro p linked
    rw [change]
    split
    · rfl
    · exact linked
  constructor
  case size => exact size.trans s.size
  case root =>
    intro start
    rw [change, if_neg other.symm]
    exact s.root start
  case placed =>
    intro m p link
    rw [change] at link
    split at link
    · next same => exact same ▸ split ▸ List.mem_append_cons_self
    · exact s.placed link
  case linked =>
    intro m p link
    rw [change] at link
    split at link
    · cases link
      exact keeps linkedC
    · exact keeps (s.linked link)
  case climbs =>
    intro m p link start
    rw [change] at link
    split at link
    · next same =>
        cases link
        exact same ▸ earlier
    · exact s.climbs link start
  case required =>
    intro m p link start d req
    rw [change] at link
    split at link
    · next same =>
        cases link
        subst same
        exact required_meet follows s.toLinked meet member req
    · exact s.required link start d req

/-- Ancestors of linked nodes after the visit were ancestors before. -/
theorem Sweeping.above_of_next (ready : Settled g entry order before)
    (linked : (parentOf parents m).isSome) (above : Above next z m) : Above parents z m :=
  above_of_lifted s.toLinked change (fun _ => s.lift follows split other ready meet) linked above

/-- A common ancestor of the predecessors after the visit was one before. -/
theorem Sweeping.common_of_next (ready : Settled g entry order before)
    (common : ∀ p ∈ linkedPreds g next m, Above next z p) :
    ∀ p ∈ linkedPreds g parents m, Above parents z p := by
  intro p member
  obtain ⟨edge, linked⟩ := mem_linkedPreds.mp member
  refine s.above_of_next follows split other meet change ready linked (common p ?_)
  refine mem_linkedPreds.mpr ⟨edge, ?_⟩
  rw [change]
  split
  · rfl
  · exact linked

theorem Sweeping.closed_step (visited : a ∈ done ++ [n]) : Closed g order next a := by
  intro p q edge earlier link
  have place := Graph.mem_first_iff (m := a) follows.nodup split
  rw [change] at link
  split at link
  · next same =>
      cases link
      subst same
      have visited := (Graph.mem_first_iff follows.nodup split).mpr earlier
      have above := meet.above p (mem_linkedPreds.mpr ⟨edge, s.filled p visited⟩)
      exact above_of_earlier s.toLinked change earlier above
  · next apart =>
      have visited : a ∈ done := by simpa [apart] using visited
      have := place.mp visited
      exact above_of_earlier s.toLinked change (by omega) (s.closed a visited p q edge earlier link)

theorem Sweeping.bounded_step (ready : Settled g entry order before) (start : a ≠ entry) :
    Bounded g order next a := by
  intro q z link common
  have common := s.common_of_next follows split other meet change ready common
  rw [change] at link
  split at link
  · next same =>
      cases link
      subst same
      exact s.idxOf_le (meet.greatest z common)
  · exact s.bounded a start q z link common

/-- A visit leaves no node with a longer way to climb, and the visited one with a shorter way if
    its parent changes. -/
theorem Sweeping.height_step (ready : Settled g entry order before) :
    (∀ m, height order next m ≤ height order parents m) ∧
      (parentOf parents n ≠ some c → height order next n < height order parents n) := by
  obtain ⟨-, linkedC, earlier⟩ := s.meet_placed follows split other meet
  have same : height order next n = order.idxOf c := by simp [height, change]
  have lower : order.idxOf c ≤ height order parents n ∧
      (parentOf parents n ≠ some c → order.idxOf c < height order parents n) := by
    obtain ⟨q, linkC⟩ := Option.isSome_iff_exists.mp linkedC
    have inside := List.idxOf_lt_length_iff.mpr (s.placed linkC)
    unfold height
    cases link : parentOf parents n with
    | none => exact ⟨inside.le, fun _ => inside⟩
    | some q =>
        have above := s.lift follows split other ready meet link
        refine ⟨s.idxOf_le above, fun changed => ?_⟩
        by_contra le
        exact changed (by rw [s.eq_of_le above (by simpa using le)])
  rw [same]
  refine ⟨fun m => ?_, lower.2⟩
  by_cases visited : m = n
  · subst visited
    exact same ▸ lower.1
  · simp [height, change, visited]

/-- A visit keeps what holds during a sweep. -/
theorem Sweeping.step (ready : Settled g entry order before) (size : next.size = parents.size) :
    Sweeping g entry order before next (done ++ [n]) where
  toLinked := s.linked_step follows split other meet change size
  kept := by
    intro m new
    rw [List.mem_append, List.mem_singleton, not_or] at new
    rw [change, if_neg new.2]
    exact s.kept m new.1
  filled := by
    intro m visited
    rw [change]
    split
    · rfl
    · next apart => exact s.filled m (by simpa [apart] using visited)
  closed := fun a visited => s.closed_step follows split other meet change visited
  bounded := fun a start => s.bounded_step follows split other meet change ready start
  lifted := fun m =>
    ((s.height_step follows split other meet change ready).1 m).trans (s.lifted m)

end Step

theorem parentOf_set (inside : n < parents.size) (m : Nat) :
    parentOf (parents.setIfInBounds n (some c)) m = if m = n then some c else parentOf parents m := by
  by_cases same : m = n
  · subst same
    simp [parentOf, Array.getD_eq_getD_getElem?, inside]
  · simp [parentOf, Array.getD_eq_getD_getElem?, same, Ne.symm same]

theorem mem_visit {new : Option Nat} (found : new ∈ joinedParent g order parents n)
    (flag : Bool) :
    (if new.isSome && parentOf parents n != new then (parents.setIfInBounds n new, true)
      else (parents, flag)) ∈ visit g order (parents, flag) n :=
  Part.mem_map _ found

/-- A visit ends. It notes a change only if some node has a shorter way to climb. -/
theorem visit_spec (follows : g.Follows entry order) (split : order = done ++ n :: rest)
    (other : n ≠ entry) (ready : Settled g entry order before)
    (s : Sweeping g entry order before parents done) (flag : Bool) :
    ∃ next flag', (next, flag') ∈ visit g order (parents, flag) n ∧
      Sweeping g entry order before next (done ++ [n]) ∧
      (∀ m, height order next m ≤ height order parents m) ∧
      (flag' = true → flag = true ∨ height order next n < height order parents n) := by
  have member : n ∈ order := split ▸ List.mem_append_cons_self
  obtain ⟨m, -, edge, earlier⟩ := follows.exists_earlier member other
  have visited := (Graph.mem_first_iff follows.nodup split).mpr earlier
  obtain ⟨c, found, meet⟩ := joinedParent_spec follows s.toLinked edge (s.filled m visited)
  have inside : n < parents.size := s.size ▸ ((follows.mem_iff n).mp member).lt_size
  by_cases same : parentOf parents n = some c
  · have change : ∀ m, parentOf parents m = if m = n then some c else parentOf parents m := by
      intro m
      split
      · next equal => rw [equal, same]
      · rfl
    have visited := mem_visit found flag
    rw [if_neg (by simp [same])] at visited
    refine ⟨parents, flag, visited,
      s.step follows split other meet change ready rfl, fun _ => Nat.le_refl _, .inl⟩
  · have change := parentOf_set (c := c) inside
    have lower := s.height_step follows split other meet change ready
    have visited := mem_visit found flag
    rw [if_pos (by simp [same])] at visited
    exact ⟨_, true, visited,
      s.step follows split other meet change ready Array.size_setIfInBounds, lower.1,
      fun _ => .inr (lower.2 same)⟩

/-- Some node has a shorter way to climb than before. -/
def Lifted (order : List Nat) (before parents : Array (Option Nat)) : Prop :=
  ∃ m ∈ order, height order parents m < height order before m

/-- The rest of a sweep ends. -/
theorem foldlM_visit_spec (follows : g.Follows entry order) (ready : Settled g entry order before)
    (split : order = done ++ rest) (start : entry ∈ done)
    (s : Sweeping g entry order before parents done) {flag : Bool}
    (lifted : flag = true → Lifted order before parents) :
    ∃ next flag', (next, flag') ∈ rest.foldlM (visit g order) (parents, flag) ∧
      Sweeping g entry order before next order ∧ (flag' = true → Lifted order before next) := by
  induction rest generalizing done parents flag with
  | nil =>
      rw [List.append_nil] at split
      exact ⟨parents, flag, Part.mem_some _, split ▸ s, lifted⟩
  | cons n rest ih =>
      have other := follows.ne_entry split start
      have member : n ∈ order := split ▸ List.mem_append_cons_self
      obtain ⟨next, flag', visited, s', lower, changed⟩ :=
        visit_spec follows split other ready s flag
      have lifted' : flag' = true → Lifted order before next := by
        intro noted
        rcases changed noted with earlier | now
        · obtain ⟨m, member, less⟩ := lifted earlier
          exact ⟨m, member, (lower m).trans_lt less⟩
        · exact ⟨n, member, now.trans_le (s.lifted n)⟩
      obtain ⟨final, flag'', found, rest⟩ :=
        ih (by simpa using split) (List.mem_append_left _ start) s' lifted'
      rw [List.foldlM_cons]
      exact ⟨final, flag'', Part.mem_bind visited found, rest⟩

theorem Settled.sweeping (ready : Settled g entry order parents) (start : entry ∈ order) :
    Sweeping g entry order parents parents [entry] where
  toLinked := ready.toLinked
  kept := fun _ _ => rfl
  filled := by
    intro n visited
    rw [List.mem_singleton.mp visited, ready.root start]
    rfl
  closed := fun n _ => ready.closed n
  bounded := ready.bounded
  lifted := fun _ => Nat.le_refl _

theorem Sweeping.settled (s : Sweeping g entry order before parents order) :
    Settled g entry order parents where
  toLinked := s.toLinked
  closed := fun n p q edge earlier link => s.closed n (s.placed link) p q edge earlier link
  bounded := s.bounded

/-- A sweep ends. It notes a change only if some node has a shorter way to climb. -/
theorem sweep_spec (follows : g.Follows entry order) (ready : Settled g entry order parents) :
    ∃ next flag, (next, flag) ∈ sweep g order parents ∧ Settled g entry order next ∧
      (∀ m, height order next m ≤ height order parents m) ∧
      (flag = true → Lifted order parents next) := by
  by_cases empty : order = []
  · subst empty
    exact ⟨parents, false, Part.mem_some _, ready, fun _ => Nat.le_refl _, nofun⟩
  · have split : order = [entry] ++ order.tail := follows.eq_cons empty
    have start : entry ∈ order := by
      rw [split]
      exact List.mem_cons_self ..
    have unchanged : false = true → Lifted order parents parents := nofun
    obtain ⟨next, flag, found, s, lifted⟩ := foldlM_visit_spec follows ready split
      (List.mem_singleton.mpr rfl) (ready.sweeping start) unchanged
    exact ⟨next, flag, found, s.settled, s.lifted, lifted⟩

/-- A visit would not change the parent of the node. -/
def Stable (g : Graph) (order : List Nat) (parents : Array (Option Nat)) (n : Nat) : Prop :=
  ∃ new ∈ joinedParent g order parents n, new.isSome = true → parentOf parents n = new

theorem visit_unchanged {flag : Bool} (h : (next, false) ∈ visit g order (parents, flag) n) :
    flag = false ∧ next = parents ∧ Stable g order parents n := by
  obtain ⟨new, found, h⟩ := (Part.mem_map_iff _).mp h
  split at h
  · cases h
  · next same =>
      cases h
      refine ⟨rfl, rfl, new, found, fun some => ?_⟩
      simpa [some] using same

theorem foldlM_visit_unchanged {flag : Bool}
    (h : (next, false) ∈ rest.foldlM (visit g order) (parents, flag)) :
    flag = false ∧ next = parents ∧ ∀ n ∈ rest, Stable g order parents n := by
  induction rest generalizing parents flag with
  | nil =>
      cases Part.mem_some_iff.mp h
      exact ⟨rfl, rfl, nofun⟩
  | cons n rest ih =>
      rw [List.foldlM_cons] at h
      obtain ⟨⟨middle, flag'⟩, visited, h⟩ := Part.mem_bind_iff.mp h
      obtain ⟨rfl, rfl, stable⟩ := ih h
      obtain ⟨rfl, rfl, here⟩ := visit_unchanged visited
      exact ⟨rfl, rfl, List.forall_mem_cons.mpr ⟨here, stable⟩⟩

theorem settle_of_changed (swept : (next, true) ∈ sweep g order parents) :
    settle g order parents = settle g order next :=
  PFun.fix_fwd_eq ((Part.mem_map_iff _).mpr ⟨_, swept, rfl⟩)

theorem mem_settle_of_unchanged (swept : (next, false) ∈ sweep g order parents) :
    next ∈ settle g order parents :=
  PFun.fix_stop ((Part.mem_map_iff _).mpr ⟨_, swept, rfl⟩)

/-- The sweeps end, with parents that no visit would change. -/
theorem settle_spec (follows : g.Follows entry order) (ready : Settled g entry order parents) :
    ∃ final ∈ settle g order parents, Settled g entry order final ∧
      ∀ n ∈ order.tail, Stable g order final n := by
  induction total : (order.map (height order parents)).sum using Nat.strongRecOn
    generalizing parents with
  | ind i ih =>
      obtain ⟨next, flag, swept, ready', lower, lifted⟩ := sweep_spec follows ready
      cases flag with
      | true =>
          have less : (order.map (height order next)).sum < i :=
            total ▸ List.sum_lt_sum _ _ (fun m _ => lower m) (lifted rfl)
          rw [settle_of_changed swept]
          exact ih _ less ready' rfl
      | false =>
          obtain ⟨-, same, stable⟩ := foldlM_visit_unchanged swept
          subst same
          exact ⟨next, mem_settle_of_unchanged swept, ready, stable⟩

/-- Before the first sweep only the entry has a parent. -/
theorem parentOf_initial {size : Nat} (link : parentOf (initial size entry) n = some p) :
    n = entry ∧ p = entry ∧ entry < size := by
  have unlinked : parentOf (Array.replicate size none) n = none := by
    by_cases inside : n < size <;> simp [parentOf, Array.getD, inside]
  by_cases inside : entry < size
  · rw [initial, parentOf_set (by simpa using inside), unlinked] at link
    split at link
    · next same =>
        cases link
        exact ⟨same, rfl, inside⟩
    · cases link
  · rw [initial, Array.setIfInBounds, dif_neg (by simpa using inside), unlinked] at link
    cases link

theorem settled_initial (follows : g.Follows entry order) :
    Settled g entry order (initial g.size entry) where
  size := by simp [initial]
  root := by
    intro start
    have inside : entry < g.size := ((follows.mem_iff entry).mp start).lt_size
    rw [initial, parentOf_set (by simpa using inside), if_pos rfl]
  placed := by
    intro n p link
    obtain ⟨rfl, -, inside⟩ := parentOf_initial link
    exact (follows.mem_iff n).mpr (.refl inside List.not_mem_nil)
  linked := by
    intro n p link
    obtain ⟨rfl, rfl, -⟩ := parentOf_initial link
    simp [link]
  climbs := fun link other => absurd (parentOf_initial link).1 other
  required := fun link other => absurd (parentOf_initial link).1 other
  closed := by
    intro n p q edge earlier link
    obtain ⟨rfl, -, inside⟩ := parentOf_initial link
    have member := (follows.mem_iff n).mpr (.refl inside List.not_mem_nil)
    rw [idxOf_entry follows member] at earlier
    omega
  bounded := fun n other q z link => absurd (parentOf_initial link).1 other

end RangeFlow.ParentTree
