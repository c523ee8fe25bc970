import RangeFlow.Analysis.Engine

/-! # Parts of a visit

What the table of ranges and the work lists look like after each of the small operations that a
visit is made of. `EngineState.Advance` says what all of them have in common: nothing that was
found is lost, and whatever changes is put on a work list.
-/

namespace RangeFlow

namespace RangeTable

@[simp] theorem set_names (t : RangeTable) (n : NameId) (vr : ValueRange) :
    (t.set n vr).names = t.names := rfl

theorem rangeOf_set (t : RangeTable) (n m : NameId) (vr : ValueRange) :
    (t.set n vr).rangeOf m = if m = n then vr else t.rangeOf m := by
  have entry : (t.set n vr).get? m = if m = n then some vr else t.get? m := by
    simp only [get?, set, size, List.getElem?_set, List.length_append, List.length_replicate]
    by_cases same : n = m
    · subst same
      simp only [if_true]
      split
      · rfl
      · omega
    · simp only [same, if_false, Ne.symm same]
      by_cases inside : m < t.ranges.length
      · rw [List.getElem?_append_left inside]
      · have outside := Nat.le_of_not_lt inside
        rw [List.getElem?_append_right outside, List.getElem?_eq_none outside,
          List.getElem?_replicate]
        split <;> rfl
  have initial : (t.set n vr).initial m = t.initial m := rfl
  rw [rangeOf, entry, initial]
  split <;> rfl

@[simp] theorem rangeOf_touch (t : RangeTable) (n m : NameId) :
    (t.touch n).rangeOf m = t.rangeOf m := by
  rw [touch, rangeOf_set]
  split
  · next same => rw [same]
  · rfl

@[simp] theorem touch_names (t : RangeTable) (n : NameId) : (t.touch n).names = t.names := rfl

@[simp] theorem update_names (t : RangeTable) (n : NameId) (vr : ValueRange) :
    (t.update n vr).1.names = t.names := by
  unfold update
  dsimp only
  split
  · rfl
  · split <;> rfl

theorem rangeOf_update_of_ne (t : RangeTable) {n m : NameId} (vr : ValueRange) (h : m ≠ n) :
    (t.update n vr).1.rangeOf m = t.rangeOf m := by
  unfold update
  dsimp only
  split
  · exact rangeOf_touch t n m
  · split <;> simp [rangeOf_set, h]

/-- What is stored for a name is the new range, or nothing is known about it any more. -/
theorem rangeOf_update_self (t : RangeTable) (n : NameId) (vr : ValueRange) :
    (t.update n vr).1.rangeOf n = vr ∨ (t.update n vr).1.rangeOf n = .varying := by
  unfold update
  dsimp only
  split
  · next same => exact .inl (by rw [rangeOf_touch, same])
  · split
    · exact .inr (by simp [rangeOf_set])
    · exact .inl (by simp [rangeOf_set])

/-- Without a change the range is the new one. -/
theorem rangeOf_update_unchanged {t : RangeTable} {n : NameId} {vr : ValueRange}
    (h : (t.update n vr).2 = false) (m : NameId) : (t.update n vr).1.rangeOf m = t.rangeOf m := by
  unfold update at h ⊢
  dsimp only at h ⊢
  split
  · exact rangeOf_touch t n m
  · next differs =>
      rw [if_neg differs] at h
      split at h <;> cases h

theorem isVarying_varying : ValueRange.varying.isVarying = true := rfl

/-- What may be any value stays so. -/
theorem isVarying_update {t : RangeTable} {n m : NameId} {vr : ValueRange}
    (h : (t.rangeOf m).isVarying = true) : ((t.update n vr).1.rangeOf m).isVarying = true := by
  by_cases same : m = n
  · subst same
    unfold update
    dsimp only
    split
    · rw [rangeOf_touch]
      exact h
    · rw [if_pos (by rw [h, Bool.or_true])]
      simp [rangeOf_set, isVarying_varying]
  · rw [rangeOf_update_of_ne t vr same]
    exact h

theorem rangeOf_update_varying (t : RangeTable) (n : NameId) :
    (t.update n .varying).1.rangeOf n = .varying := by
  rcases rangeOf_update_self t n .varying with h | h <;> exact h

/-- What has had a value loses it only by giving up. -/
theorem rangeOf_update_undefined {t : RangeTable} {n : NameId} {vr : ValueRange}
    (h : vr.isUndefined = true) :
    (t.update n vr).1.rangeOf n = t.rangeOf n ∨ (t.update n vr).1.rangeOf n = .varying := by
  unfold update
  dsimp only
  split
  · exact .inl (t.rangeOf_touch n n)
  · rw [h, Bool.true_or, if_pos rfl]
    exact .inr (by simp [rangeOf_set])

theorem typeOf_eq_of_names {t t' : RangeTable} (h : t'.names = t.names) (n : NameId) :
    t'.typeOf n = t.typeOf n := by
  rw [typeOf, typeOf, h]

end RangeTable

namespace EngineState

/-- Does the name wait? -/
def isQueued (s : EngineState) (n : NameId) : Bool := (s.queued[n]?).getD false

/-- The state after has all that was found before; what is new waits on a work list. -/
structure Advance (s s' : EngineState) : Prop where
  names : s'.table.names = s.table.names
  blocks : s'.executableBlocks = s.executableBlocks
  edgeCount : s'.executableEdges.length = s.executableEdges.length
  nameCount : s'.queued.length = s.queued.length
  /-- A name whose range has changed waits. -/
  ranges : ∀ n, n < s.queued.length → s'.table.rangeOf n ≠ s.table.rangeOf n → s'.isQueued n = true
  varying : ∀ n, (s.table.rangeOf n).isVarying = true → (s'.table.rangeOf n).isVarying = true
  queued : ∀ n, s.isQueued n = true → s'.isQueued n = true
  edges : ∀ e, s.edgeExecutable e = true → s'.edgeExecutable e = true
  /-- An edge that has been found waits. -/
  found : ∀ e, s'.edgeExecutable e = true → s.edgeExecutable e = true ∨ e ∈ s'.edgeWork
  edgeWork : ∀ e ∈ s.edgeWork, e ∈ s'.edgeWork
  /-- A name that waits is on a work list, if this was so before. -/
  waiting : (∀ n, s.isQueued n = true → n ∈ s.varyingWork ∨ n ∈ s.changedWork) →
    ∀ n, s'.isQueued n = true → n ∈ s'.varyingWork ∨ n ∈ s'.changedWork

namespace Advance

theorem refl (s : EngineState) : s.Advance s where
  names := rfl
  blocks := rfl
  edgeCount := rfl
  nameCount := rfl
  ranges := fun _ _ differs => absurd rfl differs
  varying := fun _ h => h
  queued := fun _ h => h
  edges := fun _ h => h
  found := fun _ h => .inl h
  edgeWork := fun _ h => h
  waiting := fun h => h

theorem trans {s₁ s₂ s₃ : EngineState} (h₁₂ : s₁.Advance s₂) (h₂₃ : s₂.Advance s₃) :
    s₁.Advance s₃ where
  names := h₂₃.names.trans h₁₂.names
  blocks := h₂₃.blocks.trans h₁₂.blocks
  edgeCount := h₂₃.edgeCount.trans h₁₂.edgeCount
  nameCount := h₂₃.nameCount.trans h₁₂.nameCount
  ranges := by
    intro n bound differs
    by_cases first : s₂.table.rangeOf n = s₁.table.rangeOf n
    · refine h₂₃.ranges n (h₁₂.nameCount ▸ bound) ?_
      rw [first]
      exact differs
    · exact h₂₃.queued n (h₁₂.ranges n bound first)
  varying := fun n h => h₂₃.varying n (h₁₂.varying n h)
  queued := fun n h => h₂₃.queued n (h₁₂.queued n h)
  edges := fun e h => h₂₃.edges e (h₁₂.edges e h)
  found := by
    intro e h
    rcases h₂₃.found e h with before | waits
    · rcases h₁₂.found e before with earlier | waits
      · exact .inl earlier
      · exact .inr (h₂₃.edgeWork e waits)
    · exact .inr waits
  edgeWork := fun e h => h₂₃.edgeWork e (h₁₂.edgeWork e h)
  waiting := fun h => h₂₃.waiting (h₁₂.waiting h)

theorem blockExecutable {s s' : EngineState} (h : s.Advance s') (block : BlockId) :
    s'.blockExecutable block = s.blockExecutable block := by
  rw [EngineState.blockExecutable, EngineState.blockExecutable, h.blocks]

theorem typeOf {s s' : EngineState} (h : s.Advance s') (n : NameId) :
    s'.table.typeOf n = s.table.typeOf n := RangeTable.typeOf_eq_of_names h.names n

end Advance

theorem edgeExecutable_addEdge {s : EngineState} {e e' : EdgeId} :
    (s.addEdge e).edgeExecutable e' = true ↔
      s.edgeExecutable e' = true ∨ (e' = e ∧ e < s.executableEdges.length) := by
  unfold addEdge
  split
  · next new =>
      simp only [edgeExecutable, List.getElem?_set]
      by_cases same : e = e'
      · subst same
        simp [new.1]
      · simp [same, Ne.symm same]
  · next known =>
      constructor
      · exact .inl
      · rintro (h | ⟨rfl, bound⟩)
        · exact h
        · simpa [bound] using known

theorem addEdge_advance (s : EngineState) (e : EdgeId) : s.Advance (s.addEdge e) := by
  have found : ∀ e', (s.addEdge e).edgeExecutable e' = true →
      s.edgeExecutable e' = true ∨ e' ∈ (s.addEdge e).edgeWork := by
    intro e' h
    by_cases before : s.edgeExecutable e' = true
    · exact .inl before
    · right
      rcases edgeExecutable_addEdge.mp h with known | ⟨rfl, bound⟩
      · exact absurd known before
      · have new : e' < s.executableEdges.length ∧ (!s.edgeExecutable e') = true := by
          simp [bound, before]
        simp [addEdge, new]
  have edges : ∀ e', s.edgeExecutable e' = true → (s.addEdge e).edgeExecutable e' = true :=
    fun e' h => edgeExecutable_addEdge.mpr (.inl h)
  have work : ∀ e' ∈ s.edgeWork, e' ∈ (s.addEdge e).edgeWork := by
    intro e' h
    unfold addEdge
    split
    · exact List.mem_append_left _ h
    · exact h
  unfold addEdge at found edges work ⊢
  split
  · next new =>
      simp only [new] at found edges work
      exact ⟨rfl, rfl, by simp, rfl, fun _ _ differs => absurd rfl differs, fun _ h => h,
        fun _ h => h, edges, found, work, fun h => h⟩
  · exact .refl s

theorem addEdge_frame (s : EngineState) (e : EdgeId) :
    (s.addEdge e).table = s.table ∧ (s.addEdge e).settled = s.settled := by
  unfold addEdge
  split <;> exact ⟨rfl, rfl⟩

theorem foldl_addEdge_frame (s : EngineState) (edges : List EdgeId) :
    (edges.foldl addEdge s).table = s.table ∧ (edges.foldl addEdge s).settled = s.settled := by
  induction edges generalizing s with
  | nil => exact ⟨rfl, rfl⟩
  | cons e rest ih =>
      obtain ⟨table, settled⟩ := addEdge_frame s e
      exact ⟨(ih _).1.trans table, (ih _).2.trans settled⟩

theorem foldl_addEdge_advance (s : EngineState) (edges : List EdgeId) :
    s.Advance (edges.foldl addEdge s) := by
  induction edges generalizing s with
  | nil => exact .refl s
  | cons e rest ih => exact (addEdge_advance s e).trans (ih (s.addEdge e))

theorem edgeExecutable_foldl_addEdge {s : EngineState} {edges : List EdgeId} {e : EdgeId}
    (h : e ∈ edges) (bound : e < s.executableEdges.length) :
    (edges.foldl addEdge s).edgeExecutable e = true := by
  induction edges generalizing s with
  | nil => cases h
  | cons first rest ih =>
      rcases List.mem_cons.mp h with rfl | h
      · refine (foldl_addEdge_advance (s.addEdge e) rest).edges e ?_
        exact edgeExecutable_addEdge.mpr (.inr ⟨rfl, bound⟩)
      · exact ih h ((addEdge_advance s first).edgeCount ▸ bound)

@[simp] theorem queueName_table (s : EngineState) (n : NameId) (varying : Bool) :
    (s.queueName n varying).table = s.table := by
  unfold queueName
  dsimp only
  split
  · rfl
  · split <;> rfl

@[simp] theorem queueName_settled (s : EngineState) (n : NameId) (varying : Bool) :
    (s.queueName n varying).settled = s.settled := by
  unfold queueName
  dsimp only
  split
  · rfl
  · split <;> rfl

theorem isQueued_queueName {s : EngineState} {n m : NameId} {varying : Bool} :
    (s.queueName n varying).isQueued m = true ↔
      s.isQueued m = true ∨ (m = n ∧ n < s.queued.length) := by
  have queue : (s.queueName n varying).queued =
      if (s.queued[n]?).getD true then s.queued else s.queued.set n true := by
    unfold queueName
    dsimp only
    split
    · rfl
    · split <;> rfl
  rw [isQueued, queue, isQueued]
  split
  · next known =>
      constructor
      · exact .inl
      · rintro (h | ⟨rfl, bound⟩)
        · exact h
        · rw [List.getElem?_eq_getElem bound] at known ⊢
          exact known
  · next new =>
      have bound : n < s.queued.length := by
        by_cases inside : n < s.queued.length
        · exact inside
        · rw [List.getElem?_eq_none (Nat.le_of_not_lt inside)] at new
          exact absurd rfl new
      rw [List.getElem?_set]
      by_cases same : n = m
      · subst same
        simp [bound]
      · simp [same, Ne.symm same]

theorem queueName_advance (s : EngineState) (n : NameId) (varying : Bool) :
    s.Advance (s.queueName n varying) := by
  have queued : ∀ m, s.isQueued m = true → (s.queueName n varying).isQueued m = true :=
    fun m h => isQueued_queueName.mpr (.inl h)
  unfold queueName at queued ⊢
  dsimp only at queued ⊢
  split
  · exact .refl s
  · next new =>
      simp only [new] at queued
      -- the name that is put on a list is the only one that waits now and did not before
      have isNew : ∀ m, (s.queued.set n true)[m]?.getD false = true →
          s.isQueued m = true ∨ m = n := by
        intro m h
        rw [List.getElem?_set] at h
        by_cases same : n = m
        · exact .inr same.symm
        · rw [if_neg same] at h
          exact .inl h
      cases varying with
      | true =>
          refine ⟨rfl, rfl, rfl, by simp, fun _ _ differs => absurd rfl differs, fun _ h => h,
            queued, fun _ h => h, fun _ h => .inl h, fun _ h => h, ?_⟩
          intro listed m h
          rcases isNew m h with before | rfl
          · exact (listed m before).imp (List.mem_append_left _) id
          · exact .inl (List.mem_append_right _ (List.mem_singleton.mpr rfl))
      | false =>
          refine ⟨rfl, rfl, rfl, by simp, fun _ _ differs => absurd rfl differs, fun _ h => h,
            queued, fun _ h => h, fun _ h => .inl h, fun _ h => h, ?_⟩
          intro listed m h
          rcases isNew m h with before | rfl
          · exact (listed m before).imp id (List.mem_append_left _)
          · exact .inr (List.mem_append_right _ (List.mem_singleton.mpr rfl))

theorem settle_advance (s : EngineState) (site : Site) : s.Advance (s.settle site) :=
  ⟨rfl, rfl, rfl, rfl, fun _ _ differs => absurd rfl differs, fun _ h => h, fun _ h => h,
    fun _ h => h, fun _ h => .inl h, fun _ h => h, fun h => h⟩

theorem visits_advance (s : EngineState) (visits : Nat) : s.Advance { s with visits } :=
  ⟨rfl, rfl, rfl, rfl, fun _ _ differs => absurd rfl differs, fun _ h => h, fun _ h => h,
    fun _ h => h, fun _ h => .inl h, fun _ h => h, fun h => h⟩

theorem queueName_settle (s : EngineState) (site : Site) (n : NameId) (varying : Bool) :
    (s.settle site).queueName n varying = (s.queueName n varying).settle site := by
  unfold queueName settle
  dsimp only
  split
  · rfl
  · split <;> rfl

/-- A visit stores a range for a name, and its status tells what that changes. -/
structure Stores (s s' : EngineState) (n : NameId) (status : Status) : Prop where
  stored : ∃ vr phiEdges, s' = { s with table := (s.table.update n vr).1, phiEdges } ∧
    (status = .unchanged → (s.table.update n vr).2 = false)
  gaveUp : status = .varying → (s'.table.rangeOf n).isVarying = true

theorem store_stores (s : EngineState) (n : NameId) (vr : ValueRange) :
    s.Stores (s.store n vr).1 n (s.store n vr).2 := by
  unfold store
  refine ⟨⟨vr, s.phiEdges, rfl, ?_⟩, ?_⟩
  · intro unchanged
    dsimp only at unchanged
    split at unchanged
    · next same => simpa using same
    · split at unchanged <;> cases unchanged
  · intro varying
    dsimp only at varying ⊢
    split at varying
    · cases varying
    · split at varying
      · assumption
      · cases varying

namespace Stores

variable {s s' : EngineState} {n : NameId} {status : Status}

theorem rangeOf_of_ne (h : s.Stores s' n status) {m : NameId} (differs : m ≠ n) :
    s'.table.rangeOf m = s.table.rangeOf m := by
  obtain ⟨⟨vr, phiEdges, rfl, -⟩, -⟩ := h
  exact RangeTable.rangeOf_update_of_ne s.table vr differs

theorem of_phiEdges {phiEdges : List Nat}
    (h : EngineState.Stores { s with phiEdges } s' n status) : s.Stores s' n status := by
  obtain ⟨⟨vr, phiEdges', rfl, unchanged⟩, gaveUp⟩ := h
  exact ⟨⟨vr, phiEdges', rfl, unchanged⟩, gaveUp⟩

theorem settled (h : s.Stores s' n status) : s'.settled = s.settled := by
  obtain ⟨⟨vr, phiEdges, rfl, -⟩, -⟩ := h
  rfl

theorem names (h : s.Stores s' n status) : s'.table.names = s.table.names := by
  obtain ⟨⟨vr, phiEdges, rfl, -⟩, -⟩ := h
  exact RangeTable.update_names s.table n vr

/-- A visit that changes nothing leaves nothing to do. -/
theorem advance_of_unchanged (h : s.Stores s' n .unchanged) : s.Advance s' := by
  obtain ⟨⟨vr, phiEdges, rfl, same⟩, -⟩ := h
  have ranges := RangeTable.rangeOf_update_unchanged (same rfl)
  refine ⟨by simp, rfl, rfl, rfl, ?_, ?_, fun _ h => h, fun _ h => h, fun _ h => .inl h,
    fun _ h => h, fun h => h⟩
  · intro m _ differs
    exact absurd (ranges m) differs
  · intro m
    exact RangeTable.isVarying_update

/-- After a visit that stores a range it is enough to let the name wait. -/
theorem advance_queueName (h : s.Stores s' n status) (varying : Bool) :
    s.Advance (s'.queueName n varying) := by
  obtain ⟨⟨vr, phiEdges, rfl, -⟩, -⟩ := h
  have queue := queueName_advance
    { s with table := (s.table.update n vr).1, phiEdges := phiEdges } n varying
  refine ⟨by simp, queue.blocks, queue.edgeCount, queue.nameCount, ?_, ?_,
    queue.queued, queue.edges, queue.found, queue.edgeWork, queue.waiting⟩
  · intro m bound differs
    refine isQueued_queueName.mpr ?_
    by_cases same : m = n
    · subst same
      exact .inr ⟨rfl, bound⟩
    · rw [queueName_table] at differs
      exact absurd (RangeTable.rangeOf_update_of_ne s.table vr same) differs
  · intro m h
    rw [queueName_table]
    exact RangeTable.isVarying_update h

end Stores

end EngineState

end RangeFlow
