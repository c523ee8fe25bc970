import Mathlib.Data.List.Perm.Basic
import RangeFlow.Proofs.Registration
import RangeFlow.Proofs.Renaming
import RangeFlow.Proofs.Splitting

/-! # Inserted assertions

Between the statements of a block stand new ones, in the order in which they were found. Every fact
has a place: behind its statement, at the head of the block its edge leads to, or in a block on the
edge. So the statements of the new function are the old ones and one assertion for each fact, and the
new function is valid whatever names of the right types it reads in place of the old ones.
-/

namespace RangeFlow

section Lists

variable {α κ : Type}

theorem nodup_eraseDups [BEq α] [LawfulBEq α] : ∀ l : List α, l.eraseDups.Nodup
  | [] => by simp
  | a :: l => by
      rw [List.eraseDups_cons, List.nodup_cons]
      exact ⟨by simp [List.mem_eraseDups], nodup_eraseDups _⟩
termination_by l => l.length
decreasing_by exact Nat.lt_succ_of_le (List.length_filter_le ..)

/-- Sorting a list into boxes by a key only changes its order. -/
theorem perm_flatMap_filter [BEq κ] [LawfulBEq κ] {key : α → κ} {keys : List κ} {xs : List α}
    (nodup : keys.Nodup) (covered : ∀ x ∈ xs, key x ∈ keys) :
    (keys.flatMap fun k => xs.filter (key · == k)).Perm xs := by
  induction keys generalizing xs with
  | nil =>
      cases xs with
      | nil => simp
      | cons x xs => exact absurd (covered x (List.mem_cons_self ..)) List.not_mem_nil
  | cons k keys ih =>
      obtain ⟨fresh, nodup⟩ := List.nodup_cons.mp nodup
      have rest : (keys.flatMap fun k' => xs.filter (key · == k')) =
          keys.flatMap fun k' => (xs.filter fun x => !(key x == k)).filter (key · == k') := by
        refine List.flatMap_congr fun k' hk' => ?_
        rw [List.filter_filter]
        refine List.filter_congr fun x _ => ?_
        by_cases same : key x = k'
        · have other : k' ≠ k := by
            rintro rfl
            exact fresh hk'
          simp [same, other]
        · simp [same]
      rw [List.flatMap_cons, rest]
      refine (List.Perm.append_left _ (ih nodup fun x hx => ?_)).trans
        (List.filter_append_perm _ xs)
      obtain ⟨member, other⟩ := List.mem_filter.mp hx
      rcases List.mem_cons.mp (covered x member) with same | later
      · simp [same] at other
      · exact later

/-- Where an item of a list goes when other items are put behind each of them. -/
def offset (fill : Nat → List α) : Nat → Nat
  | 0 => 0
  | i + 1 => offset fill i + 1 + (fill i).length

theorem offset_lt {fill : Nat → List α} {i j : Nat} (h : i < j) : offset fill i < offset fill j := by
  induction h with
  | refl => simp only [offset]; omega
  | step _ ih => simp only [offset]; omega

/-- The list with other items behind each of its items. -/
def spread (fill : Nat → List α) (xs : List α) : List α :=
  xs.zipIdx.flatMap fun p => p.1 :: fill p.2

theorem spread_concat (fill : Nat → List α) (xs : List α) (x : α) :
    spread fill (xs ++ [x]) = spread fill xs ++ x :: fill xs.length := by
  simp [spread, List.zipIdx_append]

theorem length_spread (fill : Nat → List α) (xs : List α) :
    (spread fill xs).length = offset fill xs.length := by
  induction xs using List.reverseRecOn with
  | nil => rfl
  | append_singleton xs x ih =>
      rw [spread_concat, List.length_append, ih, List.length_append]
      simp only [List.length_cons, List.length_nil, offset]
      omega

theorem getElem?_spread_offset {fill : Nat → List α} {xs : List α} {i : Nat} {x : α}
    (h : xs[i]? = some x) : (spread fill xs)[offset fill i]? = some x := by
  induction xs using List.reverseRecOn with
  | nil => simp at h
  | append_singleton xs last ih =>
      rw [spread_concat]
      rcases Nat.lt_trichotomy i xs.length with inside | rfl | beyond
      · rw [List.getElem?_append_left inside] at h
        rw [List.getElem?_append_left (by rw [length_spread]; exact offset_lt inside)]
        exact ih h
      · rw [← length_spread fill xs, List.getElem?_append_right (Nat.le_refl _), Nat.sub_self]
        simpa using h
      · rw [List.getElem?_eq_none (by simpa using Nat.succ_le_of_lt beyond)] at h
        cases h

/-- Behind each item stand the items that were put there. -/
theorem getElem?_spread_fill {fill : Nat → List α} {xs : List α} {i k : Nat} {x : α}
    (inside : i < xs.length) (h : (fill i)[k]? = some x) :
    (spread fill xs)[offset fill i + 1 + k]? = some x := by
  induction xs using List.reverseRecOn with
  | nil => cases inside
  | append_singleton xs last ih =>
      rw [spread_concat]
      rw [List.length_append, List.length_singleton] at inside
      rcases Nat.lt_or_eq_of_le (Nat.le_of_lt_succ inside) with earlier | rfl
      · have within := (List.getElem?_eq_some_iff.mp h).1
        have rises : StrictMono (offset fill) := fun _ _ => offset_lt
        have next : offset fill (i + 1) ≤ offset fill xs.length := rises.monotone earlier
        have later : offset fill i + 1 + k < (spread fill xs).length := by
          rw [length_spread]
          simp only [offset] at next
          omega
        rw [List.getElem?_append_left later]
        exact ih earlier
      · have place : offset fill xs.length + 1 + k = (spread fill xs).length + (k + 1) := by
          rw [length_spread]
          omega
        rw [place, List.getElem?_append_right (Nat.le_add_right _ _), Nat.add_sub_cancel_left,
          List.getElem?_cons_succ]
        exact h

/-- At each place stands an item of the list, or one that was put behind an item. -/
theorem of_getElem?_spread {fill : Nat → List α} {xs : List α} {j : Nat} {x : α}
    (h : (spread fill xs)[j]? = some x) : (∃ i, xs[i]? = some x ∧ j = offset fill i) ∨
      ∃ i, i < xs.length ∧ x ∈ fill i ∧ offset fill i < j := by
  induction xs using List.reverseRecOn with
  | nil => simp [spread] at h
  | append_singleton xs last ih =>
      rw [spread_concat] at h
      by_cases inside : j < (spread fill xs).length
      · rw [List.getElem?_append_left inside] at h
        rcases ih h with ⟨i, hi, rfl⟩ | ⟨i, bound, hx, later⟩
        · refine .inl ⟨i, ?_, rfl⟩
          rw [List.getElem?_append_left (List.getElem?_eq_some_iff.mp hi).1]
          exact hi
        · exact .inr ⟨i, by simp only [List.length_append]; omega, hx, later⟩
      · have beyond := Nat.le_of_not_lt inside
        rw [List.getElem?_append_right beyond] at h
        rw [length_spread] at beyond h
        cases rest : j - offset fill xs.length with
        | zero =>
            rw [rest] at h
            cases h
            exact .inl ⟨xs.length, by simp, by omega⟩
        | succ k =>
            rw [rest, List.getElem?_cons_succ] at h
            exact .inr ⟨xs.length, by simp, List.mem_of_getElem? h, by omega⟩

theorem spread_perm (fill : Nat → List α) (xs : List α) :
    (spread fill xs).Perm (xs ++ (List.range xs.length).flatMap fill) := by
  have parts := List.flatMap_append_perm xs.zipIdx (fun p => [p.1]) fun p => fill p.2
  have items : xs.zipIdx.flatMap (fun p => [p.1]) = xs := by
    rw [← List.map_eq_flatMap, List.zipIdx_map_fst]
  have others : xs.zipIdx.flatMap (fun p => fill p.2) = (List.range xs.length).flatMap fill := by
    have indices : xs.zipIdx.map Prod.snd = List.range xs.length := by
      rw [List.zipIdx_map_snd, List.range_eq_range']
    rw [← indices, List.flatMap_map]
  rw [items, others] at parts
  exact parts.symm

end Lists

namespace Function

section Statements

variable {insertions : List Insertion} {block : BlockId} {stmts : List Stmt}

/-- The new statements in a slot of a block. -/
def slotStmts (insertions : List Insertion) (block : BlockId) (slot : Slot) : List Stmt :=
  (insertions.filter fun i => i.block == block && i.slot == slot).map Insertion.stmt

/-- The index of an old statement of a block. -/
def newIndex (insertions : List Insertion) (block : BlockId) (i : Nat) : Nat :=
  (slotStmts insertions block .start).length + offset (fun i => slotStmts insertions block (.after i)) i

theorem newIndex_lt {i j : Nat} (h : i < j) :
    newIndex insertions block i < newIndex insertions block j :=
  Nat.add_lt_add_left (offset_lt h) _

theorem insertStmts_eq : insertStmts insertions block stmts =
    slotStmts insertions block .start ++
      spread (fun i => slotStmts insertions block (.after i)) stmts := rfl

theorem insertStmts_nil (block : BlockId) (stmts : List Stmt) : insertStmts [] block stmts = stmts := by
  rw [insertStmts_eq]
  change stmts.zipIdx.flatMap (fun p => [p.1]) = stmts
  rw [← List.map_eq_flatMap, List.zipIdx_map_fst]

theorem length_insertStmts :
    (insertStmts insertions block stmts).length = newIndex insertions block stmts.length := by
  rw [insertStmts_eq, List.length_append, length_spread, newIndex]

theorem getElem?_insertStmts {i : Nat} {stmt : Stmt} (h : stmts[i]? = some stmt) :
    (insertStmts insertions block stmts)[newIndex insertions block i]? = some stmt := by
  rw [insertStmts_eq, newIndex, List.getElem?_append_right (Nat.le_add_right _ _),
    Nat.add_sub_cancel_left]
  exact getElem?_spread_offset h

/-- The index of the first new statement in a slot. -/
def slotIndex (insertions : List Insertion) (block : BlockId) : Slot → Nat
  | .start => 0
  | .after i => newIndex insertions block i + 1

/-- The new statements of a slot stand one after the other. -/
theorem getElem?_insertStmts_slot {slot : Slot} {k : Nat} {stmt : Stmt}
    (exists_ : ∀ i, slot = .after i → i < stmts.length)
    (h : (slotStmts insertions block slot)[k]? = some stmt) :
    (insertStmts insertions block stmts)[slotIndex insertions block slot + k]? = some stmt := by
  rw [insertStmts_eq]
  cases slot with
  | start =>
      rw [slotIndex, Nat.zero_add, List.getElem?_append_left (List.getElem?_eq_some_iff.mp h).1]
      exact h
  | after i =>
      have place : slotIndex insertions block (.after i) + k =
          (slotStmts insertions block .start).length +
            (offset (fun i => slotStmts insertions block (.after i)) i + 1 + k) := by
        rw [slotIndex, newIndex]
        omega
      rw [place, List.getElem?_append_right (Nat.le_add_right _ _), Nat.add_sub_cancel_left]
      exact getElem?_spread_fill (exists_ i rfl) h

theorem mem_slotStmts {slot : Slot} {stmt : Stmt} :
    stmt ∈ slotStmts insertions block slot ↔
      ∃ x ∈ insertions, x.block = block ∧ x.slot = slot ∧ x.stmt = stmt := by
  simp [slotStmts, and_assoc]

/-- At each place of a block stands an old statement or a new one, and a new one that belongs behind
    an old one stands there. -/
theorem of_getElem?_insertStmts {j : Nat} {stmt : Stmt}
    (h : (insertStmts insertions block stmts)[j]? = some stmt) :
    (∃ i, stmts[i]? = some stmt ∧ j = newIndex insertions block i) ∨
      ∃ x ∈ insertions, x.block = block ∧ x.stmt = stmt ∧
        ∀ i, x.slot = .after i → newIndex insertions block i < j := by
  rw [insertStmts_eq] at h
  by_cases head : j < (slotStmts insertions block .start).length
  · rw [List.getElem?_append_left head] at h
    obtain ⟨x, hx, here, start, same⟩ := mem_slotStmts.mp (List.mem_of_getElem? h)
    exact .inr ⟨x, hx, here, same, fun i after => by rw [start] at after; cases after⟩
  · have beyond := Nat.le_of_not_lt head
    rw [List.getElem?_append_right beyond] at h
    rcases of_getElem?_spread h with ⟨i, hi, at_⟩ | ⟨i, -, member, later⟩
    · exact .inl ⟨i, hi, by rw [newIndex]; omega⟩
    · obtain ⟨x, hx, here, after, same⟩ := mem_slotStmts.mp member
      refine .inr ⟨x, hx, here, same, fun i' after' => ?_⟩
      rw [after] at after'
      cases after'
      rw [newIndex]
      omega

/-- The slots of a block with a number of statements. -/
def slots (count : Nat) : List Slot := .start :: (List.range count).map .after

theorem insertStmts_perm : (insertStmts insertions block stmts).Perm
    (stmts ++ (slots stmts.length).flatMap (slotStmts insertions block)) := by
  rw [insertStmts_eq, slots, List.flatMap_cons, List.flatMap_map]
  refine ((spread_perm _ stmts).append_left _).trans ?_
  rw [← List.append_assoc, ← List.append_assoc]
  exact List.perm_append_comm.append_right _

end Statements

/-- Every new statement has a slot in a block that exists. -/
def Fits (f : Function) (insertions : List Insertion) : Prop :=
  ∀ x ∈ insertions, ∃ b, f.block? x.block = some b ∧ x.slot ∈ slots b.stmts.length

section InsertAll

variable {f : Function} {names : List NameInfo} {insertions : List Insertion}

theorem block?_insertAll {id : BlockId} : (f.insertAll names insertions).block? id =
    (f.block? id).map fun b => { b with stmts := insertStmts insertions id b.stmts } := by
  simp [insertAll, block?, Function.comp_def]

/-- The statements are the old ones and the new ones. -/
theorem Fits.stmts_perm (fits : f.Fits insertions) :
    ((f.insertAll names insertions).blocks.flatMap Block.stmts).Perm
      (f.blocks.flatMap Block.stmts ++ insertions.map Insertion.stmt) := by
  have unfold_ : (f.insertAll names insertions).blocks.flatMap Block.stmts =
      f.blocks.zipIdx.flatMap fun p => insertStmts insertions p.2 p.1.stmts := by
    simp [insertAll, List.flatMap_map]
  have old : f.blocks.zipIdx.flatMap (fun p => p.1.stmts) = f.blocks.flatMap Block.stmts := by
    have blocks := List.zipIdx_map_fst 0 f.blocks
    rw [← List.flatMap_map, blocks]
  have new : f.blocks.zipIdx.flatMap
      (fun p => (slots p.1.stmts.length).flatMap (slotStmts insertions p.2)) =
      ((f.blocks.zipIdx.flatMap fun p => (slots p.1.stmts.length).map (p.2, ·)).flatMap
        fun k => insertions.filter fun x => (x.block, x.slot) == k).map Insertion.stmt := by
    simp only [List.map_flatMap, List.flatMap_assoc, List.flatMap_map]
    rfl
  have nodup : (f.blocks.zipIdx.flatMap fun p => (slots p.1.stmts.length).map (p.2, ·)).Nodup := by
    rw [List.nodup_flatMap]
    constructor
    · rintro ⟨b, id⟩ -
      refine List.Nodup.map (fun _ _ h => (Prod.mk.inj h).2) ?_
      refine List.nodup_cons.mpr ⟨by simp, List.nodup_range.map fun _ _ h => Slot.after.inj h⟩
    · refine (List.pairwise_map.mp (List.nodup_zipIdx_map_snd f.blocks)).imp ?_
      rintro ⟨b, id⟩ ⟨b', id'⟩ distinct key hkey hkey'
      obtain ⟨_, -, rfl⟩ := List.mem_map.mp hkey
      obtain ⟨_, -, same⟩ := List.mem_map.mp hkey'
      exact distinct (Prod.mk.inj same).1.symm
  have covered : ∀ x ∈ insertions, (x.block, x.slot) ∈
      f.blocks.zipIdx.flatMap fun p => (slots p.1.stmts.length).map (p.2, ·) := by
    intro x hx
    obtain ⟨b, hb, slot⟩ := fits x hx
    exact List.mem_flatMap.mpr ⟨(b, x.block), mem_zipIdx_of_block? hb,
      List.mem_map.mpr ⟨x.slot, slot, rfl⟩⟩
  rw [unfold_]
  refine (List.Perm.flatMap_left _ fun p _ => insertStmts_perm).trans ?_
  refine (List.flatMap_append_perm _ _ _).symm.trans ?_
  rw [old, new]
  exact ((perm_flatMap_filter nodup covered).map _).append_left _

end InsertAll

end Function

end RangeFlow
