import RangeFlow.Proofs.Valid

/-! # Edges of a function

The edges are read off the targets of the blocks, and targets that repeat share one edge with all
their flags. Here the table of edges is read back: which edges there are, which number an edge has,
and that an edge has the flags of every way it can be taken.
-/

namespace RangeFlow

section Upsert

variable {α β κ : Type}

/-- Merge an item into the entry with its key, or make a new entry of it. -/
def upsert [BEq κ] (key : α → κ) (entryKey : β → κ) (merge : β → α → β) (single : α → β)
    (entries : List β) (item : α) : List β :=
  if entries.any (entryKey · == key item) then
    entries.map fun e => if entryKey e == key item then merge e item else e
  else entries ++ [single item]

/-- Every item has an entry with its key, and every such entry covers it. -/
structure Collected (key : α → κ) (entryKey : β → κ) (covers : β → α → Prop)
    (items : List α) (entries : List β) : Prop where
  present : ∀ a ∈ items, ∃ e ∈ entries, entryKey e = key a
  covered : ∀ a ∈ items, ∀ e ∈ entries, entryKey e = key a → covers e a
  origin : ∀ e ∈ entries, ∃ a ∈ items, key a = entryKey e

variable {key : α → κ} {entryKey : β → κ} {merge : β → α → β} {single : α → β}
  {covers : β → α → Prop}

theorem Collected.nil : Collected key entryKey covers ([] : List α) ([] : List β) :=
  ⟨by simp, by simp, by simp⟩

variable [BEq κ] [LawfulBEq κ]

/-- Where the key has an entry, entries keep their keys, and those with the key take the item in. -/
theorem Collected.merged {items : List α} {entries : List β} {item : α}
    (h : Collected key entryKey covers items entries)
    (mergeKey : ∀ e a, entryKey (merge e a) = entryKey e)
    (mergeKeeps : ∀ e a b, covers e b → covers (merge e a) b)
    (mergeCovers : ∀ e a, covers (merge e a) a) (known : ∃ e ∈ entries, entryKey e = key item) :
    Collected key entryKey covers (items ++ [item])
      (entries.map fun e => if entryKey e == key item then merge e item else e) := by
  have entryKey_update : ∀ e, entryKey (if entryKey e == key item then merge e item else e) =
      entryKey e := by
    intro e
    split
    · exact mergeKey e item
    · rfl
  refine ⟨?_, ?_, ?_⟩
  · intro a ha
    have entry : ∃ e ∈ entries, entryKey e = key a := by
      rcases List.mem_append.mp ha with ha | ha
      · exact h.present a ha
      · rw [List.mem_singleton.mp ha]
        exact known
    obtain ⟨e, he, hkey⟩ := entry
    exact ⟨_, List.mem_map_of_mem he, (entryKey_update e).trans hkey⟩
  · intro a ha e' he' hkey
    obtain ⟨e, he, rfl⟩ := List.mem_map.mp he'
    rw [entryKey_update] at hkey
    rcases List.mem_append.mp ha with ha | ha
    · have old := h.covered a ha e he hkey
      split
      · exact mergeKeeps e item a old
      · exact old
    · rw [List.mem_singleton.mp ha] at hkey ⊢
      rw [if_pos (beq_iff_eq.mpr hkey)]
      exact mergeCovers e item
  · intro e' he'
    obtain ⟨e, he, rfl⟩ := List.mem_map.mp he'
    obtain ⟨a, ha, hkey⟩ := h.origin e he
    exact ⟨a, List.mem_append_left _ ha, hkey.trans (entryKey_update e).symm⟩

omit [BEq κ] [LawfulBEq κ] in
theorem Collected.append {items : List α} {entries : List β} {item : α}
    (h : Collected key entryKey covers items entries)
    (singleKey : ∀ a, entryKey (single a) = key a) (singleCovers : ∀ a, covers (single a) a)
    (fresh : ∀ e ∈ entries, entryKey e ≠ key item) :
    Collected key entryKey covers (items ++ [item]) (entries ++ [single item]) := by
  refine ⟨?_, ?_, ?_⟩
  · intro a ha
    rcases List.mem_append.mp ha with ha | ha
    · obtain ⟨e, he, hkey⟩ := h.present a ha
      exact ⟨e, List.mem_append_left _ he, hkey⟩
    · rw [List.mem_singleton.mp ha]
      exact ⟨single item, List.mem_append_right _ (List.mem_singleton.mpr rfl), singleKey item⟩
  · intro a ha e he hkey
    rcases List.mem_append.mp ha with ha | ha <;> rcases List.mem_append.mp he with he | he
    · exact h.covered a ha e he hkey
    · rw [List.mem_singleton.mp he, singleKey] at hkey
      obtain ⟨e', he', hkey'⟩ := h.present a ha
      exact absurd (hkey'.trans hkey.symm) (fresh e' he')
    · rw [List.mem_singleton.mp ha] at hkey
      exact absurd hkey (fresh e he)
    · rw [List.mem_singleton.mp ha, List.mem_singleton.mp he]
      exact singleCovers item
  · intro e he
    rcases List.mem_append.mp he with he | he
    · obtain ⟨a, ha, hkey⟩ := h.origin e he
      exact ⟨a, List.mem_append_left _ ha, hkey⟩
    · rw [List.mem_singleton.mp he, singleKey]
      exact ⟨item, List.mem_append_right _ (List.mem_singleton.mpr rfl), rfl⟩

theorem Collected.upsert {items : List α} {entries : List β} {item : α}
    (h : Collected key entryKey covers items entries)
    (mergeKey : ∀ e a, entryKey (merge e a) = entryKey e)
    (mergeKeeps : ∀ e a b, covers e b → covers (merge e a) b)
    (mergeCovers : ∀ e a, covers (merge e a) a)
    (singleKey : ∀ a, entryKey (single a) = key a) (singleCovers : ∀ a, covers (single a) a) :
    Collected key entryKey covers (items ++ [item])
      (upsert key entryKey merge single entries item) := by
  unfold RangeFlow.upsert
  split
  · next known =>
      obtain ⟨e, he, hkey⟩ := List.any_eq_true.mp known
      exact h.merged mergeKey mergeKeeps mergeCovers ⟨e, he, eq_of_beq hkey⟩
  · next unknown =>
      refine h.append singleKey singleCovers fun e he hkey => ?_
      exact unknown (List.any_eq_true.mpr ⟨e, he, beq_iff_eq.mpr hkey⟩)

theorem Collected.foldl_upsert {items rest : List α} {entries : List β}
    (h : Collected key entryKey covers items entries)
    (mergeKey : ∀ e a, entryKey (merge e a) = entryKey e)
    (mergeKeeps : ∀ e a b, covers e b → covers (merge e a) b)
    (mergeCovers : ∀ e a, covers (merge e a) a)
    (singleKey : ∀ a, entryKey (single a) = key a) (singleCovers : ∀ a, covers (single a) a) :
    Collected key entryKey covers (items ++ rest)
      (rest.foldl (RangeFlow.upsert key entryKey merge single) entries) := by
  induction rest generalizing items entries with
  | nil => simpa using h
  | cons item rest ih =>
      have step : Collected key entryKey covers (items ++ [item])
          (RangeFlow.upsert key entryKey merge single entries item) :=
        h.upsert mergeKey mergeKeeps mergeCovers singleKey singleCovers
      simpa using ih step

theorem forall_mem_foldl_upsert {P : β → Prop} {rest : List α} {entries : List β}
    (h : ∀ e ∈ entries, P e)
    (merged : ∀ e, P e → ∀ a ∈ rest, entryKey e = key a → P (merge e a))
    (new : ∀ a ∈ rest, P (single a)) :
    ∀ e ∈ rest.foldl (RangeFlow.upsert key entryKey merge single) entries, P e := by
  induction rest generalizing entries with
  | nil => exact h
  | cons item rest ih =>
      refine ih ?_ (fun e he a ha => merged e he a (List.mem_cons_of_mem _ ha))
        (fun a ha => new a (List.mem_cons_of_mem _ ha))
      intro e he
      unfold RangeFlow.upsert at he
      split at he
      · obtain ⟨old, hold, rfl⟩ := List.mem_map.mp he
        split
        · next same =>
            exact merged old (h old hold) item (List.mem_cons_self ..) (beq_iff_eq.mp same)
        · exact h old hold
      · rcases List.mem_append.mp he with he | he
        · exact h e he
        · rw [List.mem_singleton.mp he]
          exact new item (List.mem_cons_self ..)

end Upsert

namespace EdgeFlags

/-- Every flag of the first is set in the second. -/
structure Le (a b : EdgeFlags) : Prop where
  onTrue : a.onTrue = true → b.onTrue = true
  onFalse : a.onFalse = true → b.onFalse = true
  abnormal : a.abnormal = true → b.abnormal = true

theorem le_refl (a : EdgeFlags) : a.Le a := ⟨id, id, id⟩

theorem Le.or_right {a b : EdgeFlags} (h : a.Le b) (c : EdgeFlags) : a.Le (b.or c) := by
  refine ⟨?_, ?_, ?_⟩
  · intro flag
    simp [EdgeFlags.or, h.onTrue flag]
  · intro flag
    simp [EdgeFlags.or, h.onFalse flag]
  · intro flag
    simp [EdgeFlags.or, h.abnormal flag]

theorem le_or_self (a b : EdgeFlags) : b.Le (a.or b) :=
  ⟨by simp +contextual [EdgeFlags.or], by simp +contextual [EdgeFlags.or],
    by simp +contextual [EdgeFlags.or]⟩

end EdgeFlags

namespace Block

/-- The outgoing targets are the targets of the block, each with the flags of all its mentions. -/
theorem outgoing_collected (b : Block) :
    Collected Prod.fst Prod.fst (fun t new => new.2.Le t.2) b.flaggedTargets b.outgoing := by
  have start : Collected Prod.fst Prod.fst
      (fun (t new : BlockId × EdgeFlags) => new.2.Le t.2) [] [] := .nil
  have all : Collected Prod.fst Prod.fst (fun t new => new.2.Le t.2) ([] ++ b.flaggedTargets)
      (b.flaggedTargets.foldl addTarget []) :=
    start.foldl_upsert (fun _ _ => rfl) (fun _ a _ h => h.or_right a.2)
      (fun e a => e.2.le_or_self a.2) (fun _ => rfl) (fun a => a.2.le_refl)
  rw [List.nil_append] at all
  exact all

theorem map_fst_flaggedTargets (b : Block) :
    b.flaggedTargets.map Prod.fst = b.terminator.targets ++ b.abnormal := by
  have abnormal : (b.abnormal.map fun target =>
      (target, ({ abnormal := true } : EdgeFlags))).map Prod.fst = b.abnormal := by
    rw [List.map_map]
    exact List.map_id _
  unfold flaggedTargets
  rw [List.map_append, abnormal]
  cases b.terminator with
  | branch cond onTrue onFalse => rfl
  | jump target => rfl
  | switch index cases default => simp [Terminator.targets]
  | «return» value => rfl
  | unreachable => rfl

/-- The outgoing targets are those of the terminator and those of exceptions. -/
theorem mem_outgoing {b : Block} {target : BlockId} :
    (∃ flags, (target, flags) ∈ b.outgoing) ↔ target ∈ b.terminator.targets ++ b.abnormal := by
  rw [← map_fst_flaggedTargets]
  constructor
  · rintro ⟨flags, h⟩
    obtain ⟨mention, hmention, hkey⟩ := b.outgoing_collected.origin _ h
    exact List.mem_map.mpr ⟨mention, hmention, hkey⟩
  · intro h
    obtain ⟨mention, hmention, rfl⟩ := List.mem_map.mp h
    obtain ⟨entry, hentry, hkey⟩ := b.outgoing_collected.present mention hmention
    exact ⟨entry.2, hkey ▸ hentry⟩

theorem abnormal_of_mem {b : Block} {target : BlockId} {flags : EdgeFlags}
    (h : (target, flags) ∈ b.outgoing) (raised : target ∈ b.abnormal) : flags.abnormal = true := by
  have mention : (target, ({ abnormal := true } : EdgeFlags)) ∈ b.flaggedTargets :=
    List.mem_append_right _ (List.mem_map.mpr ⟨target, raised, rfl⟩)
  exact (b.outgoing_collected.covered _ mention _ h rfl).abnormal rfl

theorem onTrue_of_mem {b : Block} {cond : Condition} {onTrue onFalse : BlockId}
    {flags : EdgeFlags} (h : (onTrue, flags) ∈ b.outgoing)
    (branch : b.terminator = .branch cond onTrue onFalse) : flags.onTrue = true := by
  have mention : (onTrue, ({ onTrue := true } : EdgeFlags)) ∈ b.flaggedTargets := by
    simp [flaggedTargets, branch]
  exact (b.outgoing_collected.covered _ mention _ h rfl).onTrue rfl

theorem onFalse_of_mem {b : Block} {cond : Condition} {onTrue onFalse : BlockId}
    {flags : EdgeFlags} (h : (onFalse, flags) ∈ b.outgoing)
    (branch : b.terminator = .branch cond onTrue onFalse) : flags.onFalse = true := by
  have mention : (onFalse, ({ onFalse := true } : EdgeFlags)) ∈ b.flaggedTargets := by
    simp [flaggedTargets, branch]
  exact (b.outgoing_collected.covered _ mention _ h rfl).onFalse rfl

end Block

namespace Function

/-- An edge is a target of its source block that exists, with the flags of that target. -/
theorem mem_edges {f : Function} {e : Edge} :
    e ∈ f.edges ↔ ∃ b t flags, f.block? e.src = some b ∧ f.block? e.dst = some t ∧
      (e.dst, flags) ∈ b.outgoing ∧ e.flags = { flags with split := b.split || t.split } := by
  have lookup : ∀ id : BlockId, f.blocks.toArray[id]? = f.block? id := by
    intro id
    simp [block?]
  simp only [edges, List.mem_flatMap, List.mem_filterMap, Prod.exists, Option.map_eq_some_iff,
    lookup]
  constructor
  · rintro ⟨b, src, hb, dst, flags, hout, t, ht, rfl⟩
    exact ⟨b, t, flags, block?_of_mem_zipIdx hb, ht, hout, rfl⟩
  · rintro ⟨b, t, flags, hb, ht, hout, hflags⟩
    exact ⟨b, e.src, mem_zipIdx_of_block? hb, e.dst, flags, hout, t, ht, by rw [← hflags]⟩

theorem edge?_of_mem_zipIdx {f : Function} {e : Edge} {id : EdgeId} (h : (e, id) ∈ f.edges.zipIdx) :
    f.edge? id = some e := by
  simpa [edge?] using List.mem_zipIdx_iff_getElem?.mp h

theorem mem_zipIdx_of_edge? {f : Function} {e : Edge} {id : EdgeId} (h : f.edge? id = some e) :
    (e, id) ∈ f.edges.zipIdx :=
  List.mem_zipIdx_iff_getElem?.mpr (by simpa [edge?] using h)

theorem mem_edges_of_edge? {f : Function} {e : Edge} {id : EdgeId} (h : f.edge? id = some e) :
    e ∈ f.edges := List.mem_of_getElem? h

theorem edge?_lt {f : Function} {e : Edge} {id : EdgeId} (h : f.edge? id = some e) :
    id < f.edges.length := (List.getElem?_eq_some_iff.mp h).1

theorem mem_edgesWhere {f : Function} {test : Edge → Bool} {id : EdgeId} :
    id ∈ f.edgesWhere test ↔ ∃ e, f.edge? id = some e ∧ test e = true := by
  simp only [edgesWhere, List.mem_map, List.mem_filter, Prod.exists, exists_eq_right]
  constructor
  · rintro ⟨e, he, htest⟩
    exact ⟨e, edge?_of_mem_zipIdx he, htest⟩
  · rintro ⟨e, he, htest⟩
    exact ⟨e, mem_zipIdx_of_edge? he, htest⟩

theorem mem_succEdges {f : Function} {block : BlockId} {id : EdgeId} :
    id ∈ f.succEdges block ↔ ∃ e, f.edge? id = some e ∧ e.src = block := by
  simp [succEdges, mem_edgesWhere]

/-- The edge that is found leads from the one block to the other. -/
theorem findEdge?_eq_some {f : Function} {src dst : BlockId} {id : EdgeId}
    (h : f.findEdge? src dst = some id) : ∃ e, f.edge? id = some e ∧ e.src = src ∧ e.dst = dst := by
  obtain ⟨inBounds, hsrc, -⟩ := List.findIdx?_eq_some_iff_getElem.mp h
  refine ⟨f.edges[id], List.getElem?_eq_getElem inBounds, ?_⟩
  simpa using hsrc

/-- From a block to each of its targets there is an edge. -/
theorem Valid.findEdge?_target {f : Function} (hf : f.Valid) {src dst : BlockId} {b : Block}
    (hb : f.block? src = some b) (ht : dst ∈ b.terminator.targets ++ b.abnormal) :
    ∃ id, f.findEdge? src dst = some id := by
  have target : ∃ t, f.block? dst = some t := by
    have inBounds := hf.targets b (List.mem_of_getElem? hb) dst ht
    exact ⟨f.blocks[dst], List.getElem?_eq_getElem inBounds⟩
  obtain ⟨t, htarget⟩ := target
  obtain ⟨flags, hout⟩ := Block.mem_outgoing.mpr ht
  have member : (⟨src, dst, { flags with split := b.split || t.split }⟩ : Edge) ∈ f.edges :=
    mem_edges.mpr ⟨b, t, flags, hb, htarget, hout, rfl⟩
  have found : (f.findEdge? src dst).isSome := by
    rw [findEdge?, List.findIdx?_isSome]
    exact List.any_eq_true.mpr ⟨_, member, by simp⟩
  exact Option.isSome_iff_exists.mp found

end Function

end RangeFlow
