import Mathlib
import RangeFlow.Proofs.DominatorTree

/-! # Deduplication keeps every fact

A registry may drop a request that an entry covers, and may move an entry to a place that covers
the old one. Where a fact holds from some point on, it became known at that very point, so that
covering is transitive: whatever an entry covered is covered by the place it moves to.
-/

namespace RangeFlow

theorem Position.le_trans {a b c : Position} (first : a.le b = true) (second : b.le c = true) :
    a.le c = true := by
  cases a <;> cases b <;> cases c <;> simp_all [le]
  omega

/-- Of three points of which each dominates the next, the first dominates the last. -/
theorem Point.dominates_trans {g : Graph} {entry : Nat} {a b c : Point}
    (first : a.dominates (.ofGraph g entry) b = true)
    (second : b.dominates (.ofGraph g entry) c = true) :
    a.dominates (.ofGraph g entry) c = true := by
  unfold dominates at *
  by_cases ab : a.block = b.block
  · rw [if_pos ab] at first
    rw [← ab] at second
    split
    · next ac =>
        rw [if_pos ac] at second
        exact Position.le_trans first second
    · next ac =>
        rw [if_neg ac] at second
        exact second
  · rw [if_neg ab, DominatorTree.strictlyDominates_iff] at first
    by_cases bc : b.block = c.block
    · rw [← bc, if_neg ab, DominatorTree.strictlyDominates_iff]
      exact first
    · rw [if_neg bc, DominatorTree.strictlyDominates_iff] at second
      rw [if_neg fun ac : a.block = c.block => first.asymm (ac ▸ second), DominatorTree.strictlyDominates_iff]
      exact first.trans second

namespace Locus

variable {f : Function}

/-- The edge or the block of the place exists. -/
def Known (f : Function) : Locus → Prop
  | edge id => (f.edge? id).isSome
  | after block _ => block < f.blockCount

instance (place : Locus) : Decidable (place.Known f) := by
  cases place <;> unfold Known <;> infer_instance

theorem Known.reachedAt? {place : Locus} (h : place.Known f) :
    (place.reachedAt? f).isSome := by
  cases place with
  | edge id =>
      have found : (f.edge? id).isSome := h
      simpa [Locus.reachedAt?] using found
  | after block index => rfl

/-- Where a fact holds from a point on, it became known at that point. -/
theorem reachedAt?_of_holdsFrom? {place : Locus} {p : Point} (h : place.holdsFrom? f = some p) :
    place.reachedAt? f = some p := by
  cases place with
  | after block index => exact h
  | edge id =>
      simp only [holdsFrom?] at h
      simp only [Locus.reachedAt?]
      cases found : f.edge? id with
      | none => simp [found] at h
      | some e =>
          by_cases single : (f.predEdges e.dst).length = 1
          · simpa [found, single] using h
          · simp [found, single] at h

theorem covers_iff {known wanted : Locus} {t : DominatorTree} :
    known.covers f t wanted = true ↔ ∃ h r, known.holdsFrom? f = some h ∧
      wanted.reachedAt? f = some r ∧ h.dominates t r = true := by
  unfold covers
  cases known.holdsFrom? f <;> cases wanted.reachedAt? f <;> simp

end Locus

namespace AssertLocus

variable {f : Function} {a b c : AssertLocus}

/-- The first is the fact of the second, known at its place, or at a place from which it holds on
    every path to the point where the second becomes known. -/
structure Covers (f : Function) (known wanted : AssertLocus) : Prop where
  name : known.name = wanted.name
  predicate : known.predicate = wanted.predicate
  place : known.locus = wanted.locus ∨ ∃ h r, known.locus.holdsFrom? f = some h ∧
    wanted.locus.reachedAt? f = some r ∧ h.dominates f.dominators r = true

theorem Covers.refl : a.Covers f a := ⟨rfl, rfl, .inl rfl⟩

theorem Covers.trans (first : a.Covers f b) (second : b.Covers f c) : a.Covers f c := by
  refine ⟨first.name.trans second.name, first.predicate.trans second.predicate, ?_⟩
  rcases first.place with same | ⟨h, r, holds, reached, dominates⟩
  · rw [same]
    exact second.place
  rcases second.place with same | ⟨h', r', holds', reached', dominates'⟩
  · rw [← same]
    exact .inr ⟨h, r, holds, reached, dominates⟩
  · -- the middle place is reached at the point from which it holds
    rw [Locus.reachedAt?_of_holdsFrom? holds', Option.some.injEq] at reached
    subst reached
    exact .inr ⟨h, r', holds, reached', Point.dominates_trans dominates dominates'⟩

end AssertLocus

namespace Registry

variable {f : Function} {new q : AssertLocus} {requests : List AssertLocus}

/-- An entry of the registry covers the request. -/
def Covered (f : Function) (registry : Registry) (request : AssertLocus) : Prop :=
  ∃ a ∈ registry, a.Covers f request

theorem Covered.cons {registry : Registry} (h : registry.Covered f q) (a : AssertLocus) :
    Covered f (a :: registry) q := by
  obtain ⟨b, member, covers⟩ := h
  exact ⟨b, List.mem_cons_of_mem _ member, covers⟩

theorem covered_cons {registry : Registry} {a : AssertLocus} :
    Covered f (a :: registry) q ↔ a.Covers f q ∨ registry.Covered f q := by
  simp [Covered]

/-- An insertion covers the new request, and what was covered before. -/
theorem covered_insert {registry : Registry} :
    (registry.insert f f.dominators new).Covered f new ∧
      ∀ q, registry.Covered f q → (registry.insert f f.dominators new).Covered f q := by
  induction registry with
  | nil => exact ⟨⟨new, List.mem_singleton.mpr rfl, .refl⟩, fun q h => h.cons new⟩
  | cons old rest ih =>
      rw [Registry.insert]
      split
      · next same =>
          split
          · next kept =>
              refine ⟨covered_cons.mpr (.inl ⟨same.1, same.2, ?_⟩), fun q h => h⟩
              rw [Bool.or_eq_true, decide_eq_true_eq, Locus.covers_iff] at kept
              exact kept
          · split
            · next moved =>
                have widened : AssertLocus.Covers f { old with locus := new.locus } old :=
                  ⟨rfl, rfl, .inr (Locus.covers_iff.mp moved)⟩
                refine ⟨covered_cons.mpr (.inl ⟨same.1, same.2, .inl rfl⟩), fun q h => ?_⟩
                exact covered_cons.mpr ((covered_cons.mp h).imp_left widened.trans)
            · refine ⟨ih.1.cons old, fun q h => ?_⟩
              exact covered_cons.mpr ((covered_cons.mp h).imp_right (ih.2 q))
      · refine ⟨ih.1.cons old, fun q h => ?_⟩
        exact covered_cons.mpr ((covered_cons.mp h).imp_right (ih.2 q))

/-- A request at a place that exists is covered from then on. -/
theorem covered_register {registry : Registry} :
    (new.locus.Known f → (registry.register f f.dominators new).Covered f new) ∧
      ∀ q, registry.Covered f q → (registry.register f f.dominators new).Covered f q := by
  unfold register
  split
  · exact ⟨fun _ => covered_insert.1, covered_insert.2⟩
  · next unreached => exact ⟨fun known => absurd known.reachedAt? unreached, fun q h => h⟩

theorem covered_foldl_register {registry : Registry} :
    (∀ q ∈ requests, q.locus.Known f →
        (requests.foldl (register f f.dominators) registry).Covered f q) ∧
      ∀ q, registry.Covered f q →
        (requests.foldl (register f f.dominators) registry).Covered f q := by
  induction requests generalizing registry with
  | nil => exact ⟨fun q member => absurd member List.not_mem_nil, fun q h => h⟩
  | cons new rest ih =>
      refine ⟨fun q member known => ?_, fun q h => ih.2 q (covered_register.2 q h)⟩
      rcases List.mem_cons.mp member with rfl | member
      · exact ih.2 q (covered_register.1 known)
      · exact ih.1 q member known

/-- After any sequence of requests at places that exist, each of them is covered by an entry: one
    with its name and predicate, at its place or at a place that dominates it. -/
theorem requests_covered (known : ∀ q ∈ requests, q.locus.Known f) :
    ∀ q ∈ requests, ∃ a ∈ requests.foldl (register f f.dominators) [],
      a.name = q.name ∧ a.predicate = q.predicate ∧
        (a.locus = q.locus ∨ ∃ h r, a.locus.holdsFrom? f = some h ∧
          q.locus.reachedAt? f = some r ∧ h.dominates f.dominators r = true) := by
  intro q member
  obtain ⟨a, entry, covers⟩ := covered_foldl_register.1 q member (known q member)
  exact ⟨a, entry, covers.name, covers.predicate, covers.place⟩

end Registry

/-- Stores through a pointer in its first block, and in one of the two blocks that follow; the last
    block is entered by an edge that is critical. -/
def storesTwice : Function where
  name := "stores"
  names := [⟨.ptr, .param 0 false⟩, ⟨.bool, .param 1 false⟩]
  blocks :=
    [ ⟨[], [.store (.name 0) (.const 1)], .branch ⟨.ne, .name 1, .const 0⟩ 1 2, [], false⟩,
      ⟨[], [.store (.name 0) (.const 2)], .jump 2, [], false⟩,
      .ofTerminator (.return none) ]

/-- The entry after the second store takes in the request on the edge to it, moves in front of the
    branch, and then covers the request on the critical edge too. -/
theorem requests_covered_storesTwice :
    let places : List Locus := [.after 1 0, .edge 0, .after 0 0, .edge 1]
    let requests : List AssertLocus := places.map (⟨0, .compare .ne (.const 0), ·⟩)
    let registry := requests.foldl (Registry.register storesTwice storesTwice.dominators) []
    registry = [⟨0, .compare .ne (.const 0), .after 0 0⟩] ∧
      ∃ a ∈ registry, a.name = 0 ∧ a.predicate = .compare .ne (.const 0) ∧
        (a.locus = .edge 1 ∨ ∃ h r, a.locus.holdsFrom? storesTwice = some h ∧
          Locus.reachedAt? storesTwice (.edge 1) = some r ∧
            h.dominates storesTwice.dominators r = true) := by
  refine ⟨by cbv, ?_⟩
  have known : ∀ q ∈ ([.after 1 0, .edge 0, .after 0 0, .edge 1] : List Locus).map
      (fun place => (⟨0, .compare .ne (.const 0), place⟩ : AssertLocus)),
      q.locus.Known storesTwice := by decide
  exact Registry.requests_covered known ⟨0, .compare .ne (.const 0), .edge 1⟩ (by simp)

end RangeFlow
