/-! # Sets of numbers

A set of names or blocks is kept as its members in strictly ascending order, so that sets with the
same members are equal.
-/

namespace RangeFlow

/-- A finite set of numbered things. -/
structure IdSet where
  /-- The members, ascending. -/
  toList : List Nat
  /-- No member is repeated or out of order. -/
  ascending : toList.Pairwise (· < ·)
  deriving DecidableEq

namespace IdSet

/-- The set without members. -/
def empty : IdSet := ⟨[], .nil⟩

instance : EmptyCollection IdSet := ⟨empty⟩

instance : Inhabited IdSet := ⟨empty⟩

instance : Repr IdSet := ⟨fun s => reprPrec s.toList⟩

instance : Membership Nat IdSet := ⟨fun s n => n ∈ s.toList⟩

instance (n : Nat) (s : IdSet) : Decidable (n ∈ s) :=
  inferInstanceAs (Decidable (n ∈ s.toList))

/-- Is the set without members? -/
def isEmpty (s : IdSet) : Bool := s.toList.isEmpty

/-- Number of members. -/
def size (s : IdSet) : Nat := s.toList.length

/-- Is the number a member? -/
def contains (s : IdSet) (n : Nat) : Bool := decide (n ∈ s)

/-- Put a number into an ascending list. -/
def insertSorted (n : Nat) : List Nat → List Nat
  | [] => [n]
  | m :: rest =>
      if n < m then n :: m :: rest
      else if n = m then m :: rest
      else m :: insertSorted n rest

/-- The members after an insertion. -/
theorem mem_insertSorted {n k : Nat} {l : List Nat} :
    k ∈ insertSorted n l ↔ k = n ∨ k ∈ l := by
  induction l with
  | nil => simp [insertSorted]
  | cons m rest ih =>
      unfold insertSorted
      split
      · simp
      · split
        · next h => subst h; simp
        · simp only [List.mem_cons, ih]
          constructor
          · rintro (h | h | h) <;> simp [h]
          · rintro (h | h | h) <;> simp [h]

/-- An insertion keeps the list ascending. -/
theorem pairwise_insertSorted {n : Nat} {l : List Nat} (h : l.Pairwise (· < ·)) :
    (insertSorted n l).Pairwise (· < ·) := by
  induction l with
  | nil => simp [insertSorted]
  | cons m rest ih =>
      have hm := List.pairwise_cons.mp h
      unfold insertSorted
      split
      · next hlt =>
          refine List.pairwise_cons.mpr ⟨fun k hk => ?_, h⟩
          rcases List.mem_cons.mp hk with rfl | hk
          · exact hlt
          · exact Nat.lt_trans hlt (hm.1 k hk)
      · split
        · exact h
        · next hlt hne =>
            refine List.pairwise_cons.mpr ⟨fun k hk => ?_, ih hm.2⟩
            rcases mem_insertSorted.mp hk with rfl | hk
            · exact Nat.lt_of_le_of_ne (Nat.le_of_not_lt hlt) (Ne.symm hne)
            · exact hm.1 k hk

/-- Ascending lists with the same members are equal. -/
theorem list_eq_of_mem_iff {l m : List Nat} (hl : l.Pairwise (· < ·)) (hm : m.Pairwise (· < ·))
    (h : ∀ k, k ∈ l ↔ k ∈ m) : l = m := by
  induction l generalizing m with
  | nil => exact (List.eq_nil_iff_forall_not_mem.mpr fun k hk => by simpa using (h k).mpr hk).symm
  | cons a l ih =>
      cases m with
      | nil => exact absurd ((h a).mp (by simp)) (by simp)
      | cons b m =>
          have ha := List.pairwise_cons.mp hl
          have hb := List.pairwise_cons.mp hm
          have hab : a = b := by
            rcases List.mem_cons.mp ((h a).mp (by simp)) with e | e
            · exact e
            · rcases List.mem_cons.mp ((h b).mpr (by simp)) with e' | e'
              · exact e'.symm
              · exact absurd (Nat.lt_trans (ha.1 b e') (hb.1 a e)) (Nat.lt_irrefl a)
          subst hab
          refine congrArg (a :: ·) (ih ha.2 hb.2 fun k => ?_)
          constructor
          · intro hk
            rcases List.mem_cons.mp ((h k).mp (by simp [hk])) with e | e
            · exact absurd (e ▸ ha.1 k hk) (Nat.lt_irrefl k)
            · exact e
          · intro hk
            rcases List.mem_cons.mp ((h k).mpr (by simp [hk])) with e | e
            · exact absurd (e ▸ hb.1 k hk) (Nat.lt_irrefl k)
            · exact e

/-- Sets with the same members are equal. -/
theorem eq_of_mem_iff {s t : IdSet} (h : ∀ k, k ∈ s ↔ k ∈ t) : s = t := by
  cases s with
  | mk l hl =>
      cases t with
      | mk m hm =>
          have : l = m := list_eq_of_mem_iff hl hm h
          subst this
          rfl

/-- The set with one more member. -/
def insert (s : IdSet) (n : Nat) : IdSet :=
  ⟨insertSorted n s.toList, pairwise_insertSorted s.ascending⟩

/-- The set of the numbers in a list. -/
def ofList (members : List Nat) : IdSet := members.foldl insert empty

/-- The set of one number. -/
def singleton (n : Nat) : IdSet := empty.insert n

/-- The members of either set. -/
def union (s t : IdSet) : IdSet := t.toList.foldl insert s

/-- The members of both sets. -/
def inter (s t : IdSet) : IdSet :=
  ⟨s.toList.filter t.contains, s.ascending.filter _⟩

/-- The members of a set with one more member. -/
@[simp] theorem mem_insert {s : IdSet} {n k : Nat} : k ∈ s.insert n ↔ k = n ∨ k ∈ s :=
  mem_insertSorted

/-- The members of a set with more members. -/
theorem mem_foldl_insert {members : List Nat} {s : IdSet} {k : Nat} :
    k ∈ members.foldl insert s ↔ k ∈ s ∨ k ∈ members := by
  induction members generalizing s with
  | nil => simp
  | cons n rest ih =>
      simp only [List.foldl_cons, ih, mem_insert, List.mem_cons]
      constructor
      · rintro ((h | h) | h) <;> simp [h]
      · rintro (h | h | h) <;> simp [h]

/-- The empty set has no members. -/
@[simp] theorem not_mem_empty {k : Nat} : ¬ k ∈ empty := by
  intro h
  cases h

/-- The members of the set of a list. -/
@[simp] theorem mem_ofList {members : List Nat} {k : Nat} :
    k ∈ ofList members ↔ k ∈ members := by
  simp [ofList, mem_foldl_insert]

/-- The member of a set of one number. -/
@[simp] theorem mem_singleton {n k : Nat} : k ∈ singleton n ↔ k = n := by
  simp [singleton]

/-- The members of a union. -/
@[simp] theorem mem_union {s t : IdSet} {k : Nat} : k ∈ s.union t ↔ k ∈ s ∨ k ∈ t :=
  mem_foldl_insert

/-- The members of an intersection. -/
@[simp] theorem mem_inter {s t : IdSet} {k : Nat} : k ∈ s.inter t ↔ k ∈ s ∧ k ∈ t := by
  show k ∈ s.toList.filter t.contains ↔ _
  simp only [List.mem_filter, contains, decide_eq_true_eq]
  exact Iff.rfl

end IdSet

end RangeFlow
