import RangeFlow.Proofs.LoopNests

/-! # Tables of loops

A loop that is added to the table claims its nodes, and takes those over that belong to no loop or
to one less deep. Each node then belongs to the first of the deepest loops around it.
-/

namespace RangeFlow

namespace LoopForest

variable {l : NaturalLoop}

/-- The first of the deepest loops around a node. -/
def deepest? (loops : List NaturalLoop) (node : Nat) : Option NaturalLoop :=
  loops.foldl (fun best l =>
    if l.contains node && best.all (fun m : NaturalLoop => decide (m.depth < l.depth)) then some l
    else best) none

theorem innermost?_eq {f : LoopForest} {node : Nat} :
    f.innermost? node = if node < f.size then deepest? f.loops node else none := rfl

theorem deepest?_append {loops : List NaturalLoop} {node : Nat} :
    deepest? (loops ++ [l]) node =
      if l.contains node && (deepest? loops node).all fun m => decide (m.depth < l.depth) then
        some l
      else deepest? loops node := by
  rw [deepest?, List.foldl_append]
  rfl

/-- A node has no deepest loop only if no loop contains it. Otherwise the loop that is found
    contains it, and no loop that contains it is deeper. -/
theorem deepest?_spec (loops : List NaturalLoop) (node : Nat) :
    match deepest? loops node with
    | none => ∀ l ∈ loops, l.contains node = false
    | some l => l ∈ loops ∧ l.contains node = true ∧
        ∀ m ∈ loops, m.contains node = true → m.depth ≤ l.depth := by
  induction loops using List.reverseRecOn with
  | nil => exact List.forall_mem_nil _
  | append_singleton loops l ih =>
      rw [deepest?_append]
      cases best : deepest? loops node with
      | none =>
          rw [best] at ih
          by_cases inside : l.contains node = true
          · rw [inside]
            refine ⟨by simp, inside, fun m hm hn => ?_⟩
            rcases List.mem_append.mp hm with hm | hm
            · rw [ih m hm] at hn
              cases hn
            · rw [List.mem_singleton.mp hm]
          · rw [Bool.not_eq_true] at inside
            rw [inside]
            intro m hm
            rcases List.mem_append.mp hm with hm | hm
            · exact ih m hm
            · rw [List.mem_singleton.mp hm, inside]
      | some k =>
          rw [best] at ih
          obtain ⟨hk, hn, deeper⟩ := ih
          by_cases replaced : l.contains node = true ∧ k.depth < l.depth
          · have test : (l.contains node &&
                (some k).all fun m => decide (m.depth < l.depth)) = true := by simpa using replaced
            rw [if_pos test]
            refine ⟨by simp, replaced.1, fun m hm inM => ?_⟩
            rcases List.mem_append.mp hm with hm | hm
            · exact Nat.le_of_lt (Nat.lt_of_le_of_lt (deeper m hm inM) replaced.2)
            · rw [List.mem_singleton.mp hm]
          · have test : ¬ (l.contains node &&
                (some k).all fun m => decide (m.depth < l.depth)) = true := by simpa using replaced
            rw [if_neg test]
            refine ⟨List.mem_append_left _ hk, hn, fun m hm inM => ?_⟩
            rcases List.mem_append.mp hm with hm | hm
            · exact deeper m hm inM
            · rw [List.mem_singleton.mp hm] at inM ⊢
              exact Nat.le_of_not_lt fun less => replaced ⟨inM, less⟩

theorem deepest?_eq_none {loops : List NaturalLoop} {node : Nat} :
    deepest? loops node = none ↔ ∀ l ∈ loops, l.contains node = false := by
  have spec := deepest?_spec loops node
  cases found : deepest? loops node with
  | none =>
      rw [found] at spec
      exact iff_of_true rfl spec
  | some l =>
      rw [found] at spec
      refine iff_of_false (Option.some_ne_none l) fun outside => ?_
      exact absurd spec.2.1 (Bool.not_eq_true _ ▸ outside l spec.1)

end LoopForest

namespace LoopTable

open LoopForest (deepest? deepest?_append)

variable {loops : List NaturalLoop} {l : NaturalLoop} {size node : Nat} {table : LoopTable}
  {slots : Array (Option Nat)}

/-- The slot of a node after a claim. -/
def claimed (loops : List NaturalLoop) (l : NaturalLoop) : Option Nat → Option Nat
  | none => some loops.length
  | some index =>
      if (loops[index]?).any fun known => decide (l.depth ≤ known.depth) then some index
      else some loops.length

theorem claim_eq (known : ∀ index, slots[node]? = some (some index) → index < loops.length) :
    claim loops l slots node = some (slots.modify node (claimed loops l)) := by
  unfold claim
  cases found : slots[node]? with
  | none =>
      have same : slots.modify node (claimed loops l) = slots := by grind
      rw [same]
  | some slot =>
      have placed : slots.modify node (claimed loops l) =
          slots.setIfInBounds node (claimed loops l slot) := by grind
      rw [placed]
      cases slot with
      | none => rfl
      | some index =>
          simp only [claimed, List.getElem?_eq_getElem (known index found), Option.map_some,
            Option.any_some, decide_eq_true_eq]
          split
          · have same : slots.setIfInBounds node (some index) = slots := by grind
            rw [same]
          · rfl

/-- Different nodes claim independently of each other. -/
theorem foldlM_claim {nodes : List Nat} (nodup : nodes.Nodup)
    (known : ∀ node ∈ nodes, ∀ index, slots[node]? = some (some index) → index < loops.length) :
    ∃ next, nodes.foldlM (claim loops l) slots = some next ∧ next.size = slots.size ∧
      ∀ n, next[n]? = if n ∈ nodes then (slots[n]?).map (claimed loops l) else slots[n]? := by
  induction nodes generalizing slots with
  | nil => exact ⟨slots, rfl, rfl, fun n => by simp⟩
  | cons node rest ih =>
      obtain ⟨fresh, nodup⟩ := List.nodup_cons.mp nodup
      obtain ⟨here, later⟩ := List.forall_mem_cons.mp known
      have others : ∀ n, n ≠ node → (slots.modify node (claimed loops l))[n]? = slots[n]? :=
        fun n other => by rw [Array.getElem?_modify, if_neg other.symm]
      have later : ∀ n ∈ rest, ∀ index,
          (slots.modify node (claimed loops l))[n]? = some (some index) → index < loops.length := by
        intro n hn index found
        rw [others n fun same => fresh (same ▸ hn)] at found
        exact later n hn index found
      obtain ⟨next, run, size, spec⟩ := ih nodup later
      refine ⟨next, ?_, by rw [size, Array.size_modify], fun n => ?_⟩
      · rw [List.foldlM_cons, claim_eq here]
        exact run
      · rw [spec]
        by_cases first : n = node
        · subst first
          simp [fresh, Array.getElem?_modify]
        · simp [first, others n first]

/-- The slots of the table lead to the first of the deepest loops around each node. -/
structure Represents (table : LoopTable) (size : Nat) (loops : List NaturalLoop) : Prop where
  eq_loops : table.loops = loops
  eq_size : table.slots.size = size
  known : ∀ (node index : Nat), table.slots[node]? = some (some index) → index < loops.length
  deepest : ∀ (node : Nat) (slot : Option Nat), table.slots[node]? = some slot →
    slot.bind (loops[·]?) = deepest? loops node

theorem represents_empty (size : Nat) : (empty size).Represents size [] where
  eq_loops := rfl
  eq_size := by simp [empty]
  known := by simp [empty, Array.getElem?_replicate]
  deepest := by
    intro node slot found
    simp only [empty, Array.getElem?_replicate, Option.ite_none_right_eq_some,
      Option.some.injEq] at found
    rw [← found.2]
    rfl

theorem claimed_lt {slot : Option Nat} {index : Nat}
    (known : ∀ i, slot = some i → i < loops.length) (found : claimed loops l slot = some index) :
    index < (loops ++ [l]).length := by
  rw [List.length_append, List.length_singleton]
  cases slot with
  | none =>
      cases found
      exact Nat.lt_succ_self _
  | some i =>
      rw [claimed] at found
      split at found
      · cases found
        exact Nat.lt_succ_of_lt (known index rfl)
      · cases found
        exact Nat.lt_succ_self _

/-- After a claim the slot leads to the deeper one of two loops, and to the one that was added first
    if they are equally deep. -/
theorem claimed_bind {slot : Option Nat} (known : ∀ i, slot = some i → i < loops.length)
    (deepest : slot.bind (loops[·]?) = deepest? loops node) (inside : l.contains node = true) :
    (claimed loops l slot).bind ((loops ++ [l])[·]?) = deepest? (loops ++ [l]) node := by
  rw [deepest?_append, ← deepest, inside]
  cases slot with
  | none => simp [claimed]
  | some i =>
      have bound := known i rfl
      simp only [claimed, Option.bind_some, List.getElem?_eq_getElem bound, Option.any_some,
        Option.all_some, Bool.true_and, decide_eq_true_eq]
      by_cases shallow : l.depth ≤ loops[i].depth
      · simp [shallow, Nat.not_lt.mpr shallow, List.getElem?_append_left bound]
      · simp [shallow, Nat.lt_of_not_le shallow]

theorem add?_represents (h : table.Represents size loops) (l : NaturalLoop) :
    ∃ next, table.add? l = some next ∧ next.Represents size (loops ++ [l]) := by
  obtain ⟨slots, run, sized, spec⟩ := foldlM_claim (l := l)
    (l.body.ascending.imp Nat.ne_of_lt) fun node _ index => h.known node index
  have slotOf : ∀ node slot', slots[node]? = some slot' → ∃ slot, table.slots[node]? = some slot ∧
      slot' = if l.contains node then claimed loops l slot else slot := by
    intro node slot' found
    rw [spec] at found
    by_cases inside : node ∈ l.body.toList
    · rw [if_pos inside] at found
      obtain ⟨slot, before, rfl⟩ := Option.map_eq_some_iff.mp found
      exact ⟨slot, before, by rw [if_pos (NaturalLoop.contains_iff.mpr inside)]⟩
    · rw [if_neg inside] at found
      exact ⟨slot', found, by rw [if_neg fun member => inside (NaturalLoop.contains_iff.mp member)]⟩
  refine ⟨⟨loops ++ [l], slots⟩, ?_, rfl, sized.trans h.eq_size, ?_, ?_⟩
  · rw [add?, h.eq_loops, run]
    rfl
  · intro node index found
    obtain ⟨slot, before, after⟩ := slotOf node _ found
    have known : ∀ i, slot = some i → i < loops.length :=
      fun i same => h.known node i (same ▸ before)
    split at after
    · exact claimed_lt known after.symm
    · rw [List.length_append]
      exact Nat.lt_add_right _ (known index after.symm)
  · intro node slot' found
    obtain ⟨slot, before, after⟩ := slotOf node _ found
    have known : ∀ i, slot = some i → i < loops.length :=
      fun i same => h.known node i (same ▸ before)
    split at after
    · next inside => exact after ▸ claimed_bind known (h.deepest node slot before) inside
    · next outside =>
        have keeps : slot'.bind ((loops ++ [l])[·]?) = slot.bind (loops[·]?) := by
          rw [after]
          cases slot with
          | none => rfl
          | some i => exact List.getElem?_append_left (known i rfl)
        rw [keeps, h.deepest node slot before, deepest?_append]
        simp [outside]

theorem foldlM_add?_represents (h : table.Represents size loops) (rest : List NaturalLoop) :
    ∃ next, rest.foldlM add? table = some next ∧ next.Represents size (loops ++ rest) := by
  induction rest generalizing table loops with
  | nil => exact ⟨table, rfl, by simpa using h⟩
  | cons l rest ih =>
      obtain ⟨middle, run, h'⟩ := add?_represents h l
      obtain ⟨next, run', h''⟩ := ih h'
      refine ⟨next, ?_, by simpa using h''⟩
      rw [List.foldlM_cons, run]
      exact run'

theorem Represents.innermost?_eq (h : table.Represents size loops) (node : Nat) :
    table.innermost? node = (LoopForest.mk size loops).innermost? node := by
  rw [innermost?, LoopForest.innermost?_eq]
  by_cases inside : node < size
  · have found := Array.getElem?_eq_getElem (h.eq_size.symm ▸ inside)
    rw [found, Option.join_some, if_pos inside, h.eq_loops, h.deepest node _ found]
  · have beyond := Array.getElem?_eq_none (h.eq_size.symm ▸ Nat.le_of_not_lt inside)
    rw [beyond, if_neg inside]
    rfl

end LoopTable

end RangeFlow
