import RangeFlow.Graph.ParentTree
import RangeFlow.Proofs.DominatorTree
import RangeFlow.Proofs.SearchOrder

/-! # Ancestors

The parents that are known at one moment of the iteration link every node to the entry, and each
link leads to an earlier node. No link passes over a node that every way has to pass. Two linked
nodes have a nearest common ancestor, and the search for it ends.
-/

namespace RangeFlow.ParentTree

variable {g : Graph} {entry : Nat} {order : List Nat} {parents : Array (Option Nat)}
  {a b c d n p z : Nat}

/-- One comes to a node when one climbs from another. -/
inductive Above (parents : Array (Option Nat)) (z : Nat) : Nat → Prop where
  | refl : Above parents z z
  | up {n p : Nat} (link : parentOf parents n = some p) (above : Above parents z p) :
      Above parents z n

namespace Above

theorem trans (first : Above parents z b) (second : Above parents b n) : Above parents z n := by
  induction second with
  | refl => exact first
  | up link _ ih => exact .up link ih

/-- What is above a node and not the node itself is above its parent. -/
theorem parent (h : Above parents z n) (other : z ≠ n) (link : parentOf parents n = some p) :
    Above parents z p := by
  cases h with
  | refl => exact absurd rfl other
  | up link' above =>
      rw [link] at link'
      cases link'
      exact above

end Above

/-- The parents of a moment of the iteration: only nodes that can be reached have one, the entry is
    its own, and every other one comes before its children and has a parent itself. A node that is
    required for a node is its parent, or required for its parent. -/
structure Linked (g : Graph) (entry : Nat) (order : List Nat) (parents : Array (Option Nat)) :
    Prop where
  size : parents.size = g.size
  root : entry ∈ order → parentOf parents entry = some entry
  placed : ∀ {n p}, parentOf parents n = some p → n ∈ order
  linked : ∀ {n p}, parentOf parents n = some p → (parentOf parents p).isSome
  climbs : ∀ {n p}, parentOf parents n = some p → n ≠ entry → order.idxOf p < order.idxOf n
  required : ∀ {n p}, parentOf parents n = some p → n ≠ entry →
    ∀ d, g.Requires entry d n → d = p ∨ g.Requires entry d p

/-- Nothing is required for the entry. -/
theorem not_requires_entry : ¬ g.Requires entry d entry := by
  rintro ⟨way, other, needed⟩
  exact needed (.refl way.lt_size (by simpa using other.symm))

namespace Linked

variable (h : Linked g entry order parents)

include h

theorem parent_mem (link : parentOf parents n = some p) : p ∈ order := by
  obtain ⟨q, link'⟩ := Option.isSome_iff_exists.mp (h.linked link)
  exact h.placed link'

theorem parent_entry (link : parentOf parents entry = some p) : p = entry := by
  have root := h.root (h.placed link)
  rw [link] at root
  exact Option.some.inj root

/-- One climbs towards the front of the order, and stays only at the entry. -/
theorem idxOf_le (above : Above parents z n) : order.idxOf z ≤ order.idxOf n := by
  induction above with
  | refl => exact Nat.le_refl _
  | @up n p link above ih =>
      by_cases start : n = entry
      · subst start
        rw [h.parent_entry link] at ih
        exact ih
      · exact Nat.le_trans ih (Nat.le_of_lt (h.climbs link start))

theorem eq_of_le (above : Above parents z n) (le : order.idxOf n ≤ order.idxOf z) : z = n := by
  induction above with
  | refl => rfl
  | @up n p link above ih =>
      by_cases start : n = entry
      · subst start
        rw [h.parent_entry link] at ih
        exact ih le
      · have := h.idxOf_le above
        have := h.climbs link start
        omega

theorem antisymm (first : Above parents a b) (second : Above parents b a) : a = b :=
  h.eq_of_le first (h.idxOf_le second)

theorem eq_entry (above : Above parents z entry) : z = entry := by
  generalize start : entry = n at above
  induction above with
  | refl => rfl
  | @up n p link above ih =>
      subst start
      rw [h.parent_entry link] at ih
      exact ih rfl

theorem isSome_of_above (above : Above parents z n) (some : (parentOf parents n).isSome) :
    (parentOf parents z).isSome := by
  induction above with
  | refl => exact some
  | up link _ ih => exact ih (h.linked link)

/-- A node that is required for a linked node is above it. -/
theorem above_of_requires (some : (parentOf parents n).isSome) (req : g.Requires entry d n) :
    Above parents d n := by
  induction index : order.idxOf n using Nat.strongRecOn generalizing n with
  | ind i ih =>
      obtain ⟨p, link⟩ := Option.isSome_iff_exists.mp some
      have other : n ≠ entry := by
        rintro rfl
        exact not_requires_entry req
      rcases h.required link other d req with rfl | req
      · exact .up link .refl
      · exact .up link (ih _ (index ▸ h.climbs link other) (h.linked link) req rfl)

/-- Climbing from a node to an ancestor, one passes a node that is required, or it is required for
    the ancestor as well. -/
theorem required_above (above : Above parents c n) (req : d = n ∨ g.Requires entry d n) :
    (d = c ∨ g.Requires entry d c) ∨ Above parents c d := by
  induction above with
  | refl => exact .inl req
  | @up n p link above ih =>
      rcases req with rfl | req
      · exact .inr (.up link above)
      · have other : n ≠ entry := by
          rintro rfl
          exact not_requires_entry req
        exact ih (h.required link other d req)

end Linked

/-- The nearest common ancestor of some nodes. -/
structure IsMeet (parents : Array (Option Nat)) (nodes : List Nat) (c : Nat) : Prop where
  above : ∀ p ∈ nodes, Above parents c p
  greatest : ∀ z, (∀ p ∈ nodes, Above parents z p) → Above parents z c

theorem isMeet_pair : IsMeet parents [a, b] c ↔ (Above parents c a ∧ Above parents c b) ∧
    ∀ z, Above parents z a → Above parents z b → Above parents z c := by
  constructor
  · rintro ⟨above, greatest⟩
    simpa using And.intro above greatest
  · rintro ⟨above, greatest⟩
    exact ⟨by simpa using above, by simpa using greatest⟩

theorem IsMeet.swap (meet : IsMeet parents [a, b] c) : IsMeet parents [b, a] c := by
  rw [isMeet_pair] at meet ⊢
  exact ⟨meet.1.symm, fun z aboveB aboveA => meet.2 z aboveA aboveB⟩

/-- A node that comes after another one has the same common ancestors with it as its parent. -/
theorem IsMeet.climb (h : Linked g entry order parents) (link : parentOf parents a = some p)
    (later : order.idxOf b < order.idxOf a) (meet : IsMeet parents [p, b] c) :
    IsMeet parents [a, b] c := by
  rw [isMeet_pair] at meet ⊢
  obtain ⟨⟨aboveP, aboveB⟩, greatest⟩ := meet
  refine ⟨⟨.up link aboveP, aboveB⟩, fun z aboveA' aboveB' => ?_⟩
  have other : z ≠ a := by
    rintro rfl
    have := h.idxOf_le aboveB'
    omega
  exact greatest z (aboveA'.parent other link) aboveB'

theorem idxOf_entry (follows : g.Follows entry order) (some : a ∈ order) :
    order.idxOf entry = 0 := by
  rw [follows.eq_cons (List.ne_nil_of_mem some)]
  exact List.idxOf_cons_self

theorem commonAncestor_self : a ∈ commonAncestor order parents a a :=
  PFun.fix_stop (Part.mem_some_iff.mpr (if_pos rfl).symm)

theorem commonAncestor_left (later : order.idxOf b < order.idxOf a)
    (link : parentOf parents a = some p) :
    commonAncestor order parents a b = commonAncestor order parents p b := by
  have apart : a ≠ b := by
    rintro rfl
    exact Nat.lt_irrefl _ later
  apply PFun.fix_fwd_eq
  rw [Part.mem_some_iff, climb, if_neg apart, if_pos later, link]

theorem commonAncestor_right (later : order.idxOf a < order.idxOf b)
    (link : parentOf parents b = some p) :
    commonAncestor order parents a b = commonAncestor order parents a p := by
  have apart : a ≠ b := by
    rintro rfl
    exact Nat.lt_irrefl _ later
  apply PFun.fix_fwd_eq
  rw [Part.mem_some_iff, climb, if_neg apart, if_neg (Nat.lt_asymm later), if_pos later, link]

/-- The two nodes that climb meet at their nearest common ancestor. -/
theorem commonAncestor_spec (follows : g.Follows entry order) (h : Linked g entry order parents)
    (ha : (parentOf parents a).isSome) (hb : (parentOf parents b).isSome) :
    ∃ c ∈ commonAncestor order parents a b, IsMeet parents [a, b] c := by
  induction total : order.idxOf a + order.idxOf b using Nat.strongRecOn generalizing a b with
  | ind i ih =>
      obtain ⟨p, linkA⟩ := Option.isSome_iff_exists.mp ha
      obtain ⟨q, linkB⟩ := Option.isSome_iff_exists.mp hb
      have front := idxOf_entry follows (h.placed linkA)
      rcases Nat.lt_trichotomy (order.idxOf b) (order.idxOf a) with later | equal | earlier
      · have other : a ≠ entry := by
          rintro rfl
          omega
        have shorter := h.climbs linkA other
        obtain ⟨c, found, meet⟩ := ih _ (by omega) (h.linked linkA) hb rfl
        rw [commonAncestor_left later linkA]
        exact ⟨c, found, meet.climb h linkA later⟩
      · obtain rfl := (List.idxOf_inj (h.placed linkB)).mp equal
        exact ⟨b, commonAncestor_self, isMeet_pair.mpr ⟨⟨.refl, .refl⟩, fun z above _ => above⟩⟩
      · have other : b ≠ entry := by
          rintro rfl
          omega
        have shorter := h.climbs linkB other
        obtain ⟨c, found, meet⟩ := ih _ (by omega) ha (h.linked linkB) rfl
        rw [commonAncestor_right earlier linkB]
        exact ⟨c, found, (meet.swap.climb h linkB earlier).swap⟩

/-- The nearest common ancestor of several nodes is found one after the other. -/
theorem foldlM_commonAncestor_spec (follows : g.Follows entry order)
    (h : Linked g entry order parents) {rest : List Nat} (ha : (parentOf parents a).isSome)
    (linked : ∀ p ∈ rest, (parentOf parents p).isSome) :
    ∃ c ∈ rest.foldlM (fun current p => commonAncestor order parents p current) a,
      IsMeet parents (a :: rest) c := by
  induction rest generalizing a with
  | nil =>
      refine ⟨a, Part.mem_some a, ?_, fun z above => above a (List.mem_singleton.mpr rfl)⟩
      simpa using Above.refl
  | cons p rest ih =>
      rw [List.forall_mem_cons] at linked
      obtain ⟨b, found, meet⟩ := commonAncestor_spec follows h linked.1 ha
      obtain ⟨⟨aboveP, aboveA⟩, greatest⟩ := isMeet_pair.mp meet
      obtain ⟨c, found', meet'⟩ := ih (h.isSome_of_above aboveA ha) linked.2
      have aboveB := meet'.above b (List.mem_cons_self ..)
      rw [List.foldlM_cons]
      refine ⟨c, Part.mem_bind found found', ?_, fun z common => ?_⟩
      · rw [List.forall_mem_cons, List.forall_mem_cons]
        exact ⟨aboveB.trans aboveA, aboveB.trans aboveP,
          fun q member => meet'.above q (List.mem_cons_of_mem _ member)⟩
      · rw [List.forall_mem_cons, List.forall_mem_cons] at common
        refine meet'.greatest z (List.forall_mem_cons.mpr ⟨?_, common.2.2⟩)
        exact greatest z common.2.1 common.1

theorem mem_linkedPreds : p ∈ linkedPreds g parents n ↔
    (p, n) ∈ g.edges ∧ (parentOf parents p).isSome := by
  simp [linkedPreds, Graph.mem_preds]

/-- A node with a linked predecessor is given the nearest common ancestor of all of them. -/
theorem joinedParent_spec (follows : g.Follows entry order) (h : Linked g entry order parents)
    (edge : (p, n) ∈ g.edges) (linked : (parentOf parents p).isSome) :
    ∃ c, some c ∈ joinedParent g order parents n ∧
      IsMeet parents (linkedPreds g parents n) c := by
  have member : p ∈ linkedPreds g parents n := mem_linkedPreds.mpr ⟨edge, linked⟩
  have each : ∀ q ∈ linkedPreds g parents n, (parentOf parents q).isSome :=
    fun q member => (mem_linkedPreds.mp member).2
  unfold joinedParent
  cases preds : linkedPreds g parents n with
  | nil =>
      rw [preds] at member
      cases member
  | cons first rest =>
      rw [preds, List.forall_mem_cons] at each
      obtain ⟨c, found, meet⟩ := foldlM_commonAncestor_spec follows h each.1 each.2
      exact ⟨c, Part.mem_map some found, meet⟩

end RangeFlow.ParentTree
