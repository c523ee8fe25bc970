import RangeFlow.Proofs.Insertion

/-! # The function with assertions

The function with an assertion for each fact is put together: blocks on edges, new names, new
statements, and other names in place of those read. It is valid for every choice of names that have
the types of the old ones.
-/

namespace RangeFlow

theorem getElem?_filterMap_of_isSome {α β : Type} {p : α → Option β} {l : List α}
    (h : ∀ x ∈ l, (p x).isSome = true) (i : Nat) : (l.filterMap p)[i]? = (l[i]?).bind p := by
  induction l generalizing i with
  | nil => simp
  | cons x l ih =>
      obtain ⟨y, hy⟩ := Option.isSome_iff_exists.mp (h x (List.mem_cons_self ..))
      rw [List.filterMap_cons, hy]
      cases i with
      | zero => simp [hy]
      | succ i => simpa using ih (fun x hx => h x (List.mem_cons_of_mem _ hx)) i

namespace Function

/-- The function with other names in place of those read, by the point where they are read. -/
def renameUses (f : Function) (r : Point → NameId → NameId) : Function :=
  { f with blocks := f.blocks.zipIdx.map fun (b, id) => renameBlock r id b }

section Renamed

variable {f : Function} {r : Point → NameId → NameId}

theorem renameBlock_eq (id : BlockId) (b : Block) : renameBlock r id b =
    { b with
      phis := b.phis.map (Phi.rename fun p => r ⟨p, .blockEnd⟩)
      stmts := b.stmts.zipIdx.map fun p => p.1.rename (r ⟨id, .before p.2⟩)
      terminator := b.terminator.rename (r ⟨id, .blockEnd⟩) } := rfl

@[simp] theorem nameCount_renameUses : (f.renameUses r).nameCount = f.nameCount := rfl

@[simp] theorem typeOf_renameUses {n : NameId} : (f.renameUses r).typeOf n = f.typeOf n := rfl

@[simp] theorem defaultNames_renameUses : (f.renameUses r).defaultNames = f.defaultNames := rfl

theorem block?_renameUses {id : BlockId} :
    (f.renameUses r).block? id = (f.block? id).map (renameBlock r id) := by
  simp [renameUses, block?, Function.comp_def]

theorem stmtAt?_renameUses {block : BlockId} {index : Nat} :
    (f.renameUses r).stmtAt? block index =
      (f.stmtAt? block index).map (Stmt.rename (r ⟨block, .before index⟩)) := by
  rw [stmtAt?, stmtAt?, block?_renameUses]
  cases f.block? block with
  | none => rfl
  | some b => simp [renameBlock, Function.comp_def]

theorem outline_renameUses :
    (f.renameUses r).blocks.map Block.outline = f.blocks.map Block.outline := by
  have each : ∀ (b : Block) (id : BlockId), (renameBlock r id b).outline = b.outline := by
    intro b id
    simp only [Block.outline, Block.flaggedTargets, renameBlock]
    cases b.terminator <;> rfl
  rw [renameUses, List.map_map]
  calc f.blocks.zipIdx.map (Block.outline ∘ fun p => renameBlock r p.2 p.1)
      = (f.blocks.zipIdx.map Prod.fst).map Block.outline := by
        rw [List.map_map]
        exact List.map_congr_left fun p _ => each p.1 p.2
    _ = f.blocks.map Block.outline := by rw [List.zipIdx_map_fst]

theorem defs_renameBlock (b : Block) (id : BlockId) : (renameBlock r id b).defs = b.defs := by
  have stmts : (b.stmts.zipIdx.map fun p => p.1.rename (r ⟨id, .before p.2⟩)).filterMap Stmt.dest? =
      b.stmts.filterMap Stmt.dest? := by
    calc (b.stmts.zipIdx.map fun p => p.1.rename (r ⟨id, .before p.2⟩)).filterMap Stmt.dest?
        = (b.stmts.zipIdx.map Prod.fst).filterMap Stmt.dest? := by
          rw [List.filterMap_map, List.filterMap_map]
          refine List.filterMap_congr fun p _ => ?_
          exact p.1.dest?_rename
      _ = b.stmts.filterMap Stmt.dest? := by rw [List.zipIdx_map_fst]
  simp only [Block.defs, renameBlock, stmts, List.map_map]
  rfl

theorem defs_renameUses :
    (f.renameUses r).blocks.flatMap Block.defs = f.blocks.flatMap Block.defs := by
  calc (f.renameUses r).blocks.flatMap Block.defs
      = (f.blocks.zipIdx.map Prod.fst).flatMap Block.defs := by
        rw [renameUses, List.flatMap_map, List.flatMap_map]
        exact List.flatMap_congr fun p _ => defs_renameBlock p.1 p.2
    _ = f.blocks.flatMap Block.defs := by rw [List.zipIdx_map_fst]

theorem isAssert_renameUses : ((f.renameUses r).blocks.flatMap Block.stmts).map Stmt.isAssert =
    (f.blocks.flatMap Block.stmts).map Stmt.isAssert := by
  have block : ∀ (b : Block) (id : BlockId),
      (renameBlock r id b).stmts.map Stmt.isAssert = b.stmts.map Stmt.isAssert := by
    intro b id
    calc (renameBlock r id b).stmts.map Stmt.isAssert
        = (b.stmts.zipIdx.map Prod.fst).map Stmt.isAssert := by
          rw [renameBlock_eq, List.map_map, List.map_map]
          exact List.map_congr_left fun p _ => p.1.isAssert_rename
      _ = b.stmts.map Stmt.isAssert := by rw [List.zipIdx_map_fst]
  calc ((f.renameUses r).blocks.flatMap Block.stmts).map Stmt.isAssert
      = (f.blocks.zipIdx.map Prod.fst).flatMap fun b => b.stmts.map Stmt.isAssert := by
        rw [renameUses, List.map_flatMap, List.flatMap_map, List.flatMap_map]
        exact List.flatMap_congr fun p _ => block p.1 p.2
    _ = (f.blocks.flatMap Block.stmts).map Stmt.isAssert := by
        rw [List.zipIdx_map_fst, List.map_flatMap]

end Renamed

section Places

variable {f : Function} {loci : List AssertLocus} {splits : List (BlockId × BlockId)}

/-- Where the assertion of a fact stands. -/
inductive PlacedAt (f : Function) (splits : List (BlockId × BlockId)) :
    Locus → BlockId → Slot → Prop where
  | after (block : BlockId) (index : Nat) : PlacedAt f splits (.after block index) block (.after index)
  /-- In a block on the edge. -/
  | split {id : EdgeId} {e : Edge} {i : Nat} (he : f.edge? id = some e)
      (hi : splits[i]? = some (e.src, e.dst)) :
      PlacedAt f splits (.edge id) (f.blockCount + i) .start
  /-- In the block that the edge alone leads to. -/
  | head {id : EdgeId} {e : Edge} (he : f.edge? id = some e) (single : (f.predEdges e.dst).length = 1) :
      PlacedAt f splits (.edge id) e.dst .start

theorem placedAt_of_placeOf? {locus : Locus} {block : BlockId} {slot : Slot}
    (h : f.placeOf? splits locus = some (block, slot)) : f.PlacedAt splits locus block slot := by
  cases locus with
  | after block index =>
      cases h
      exact .after block index
  | edge id =>
      rw [placeOf?] at h
      split at h
      · next ends hends =>
          obtain ⟨i, found, same⟩ := Option.map_eq_some_iff.mp h
          cases same
          obtain ⟨e, he, split⟩ := Option.bind_eq_some_iff.mp hends
          split at split
          · cases split
          · cases split
            obtain ⟨inBounds, here, -⟩ := List.findIdx?_eq_some_iff_getElem.mp found
            exact .split he (by rw [List.getElem?_eq_getElem inBounds, eq_of_beq here])
      · next unsplit =>
          obtain ⟨e, he, same⟩ := Option.map_eq_some_iff.mp h
          cases same
          refine .head he ?_
          by_contra several
          simp [splitEnds?, he, several] at unsplit

variable {P : BlockId → Nat → NameId → Prop} (found : ∀ l ∈ loci, f.Registered P l)

include found

theorem splittable_edgesToSplit : f.Splittable (f.edgesToSplit loci) := by
  refine ⟨nodup_eraseDups _, fun src dst member => ?_⟩
  obtain ⟨l, hl, ends⟩ := List.mem_filterMap.mp (List.mem_eraseDups.mp member)
  cases locus : l.locus with
  | after block index =>
      rw [locus] at ends
      cases ends
  | edge id =>
      have registered := found l hl
      unfold Registered at registered
      rw [locus] at registered ends
      obtain ⟨e, b, he, normal, hb, -⟩ := registered
      obtain ⟨e', he', split⟩ := Option.bind_eq_some_iff.mp ends
      rw [he] at he'
      cases he'
      split at split
      · cases split
      · cases split
        obtain ⟨b', t, flags, hb', -, out, hflags⟩ := mem_edges.mp (mem_edges_of_edge? he)
        rw [hb] at hb'
        cases hb'
        have unraised : e.dst ∉ b.abnormal := by
          intro raised
          have flag := Block.abnormal_of_mem out raised
          rw [Edge.isAbnormal, hflags] at normal
          rw [flag] at normal
          cases normal
        refine ⟨b, hb, ?_, unraised⟩
        exact (List.mem_append.mp (Block.mem_outgoing.mp ⟨flags, out⟩)).resolve_right unraised

theorem isSome_placeOf? : ∀ l ∈ loci, (f.placeOf? (f.edgesToSplit loci) l.locus).isSome = true := by
  intro l hl
  cases locus : l.locus with
  | after block index => rfl
  | edge id =>
      have registered := found l hl
      unfold Registered at registered
      rw [locus] at registered
      obtain ⟨e, b, he, -⟩ := registered
      rw [placeOf?]
      split
      · next ends hends =>
          have member : ends ∈ f.edgesToSplit loci :=
            List.mem_eraseDups.mpr (List.mem_filterMap.mpr ⟨l, hl, by rw [locus, hends]⟩)
          rw [Option.isSome_map, List.findIdx?_isSome]
          exact List.any_eq_true.mpr ⟨ends, member, by simp⟩
      · simp [he]

/-- The facts have their places in the order in which they were found. -/
theorem getElem?_placements (i : Nat) : (f.placements loci)[i]? =
    (loci[i]?).bind fun l => (f.placeOf? (f.edgesToSplit loci) l.locus).map (l, ·) := by
  refine getElem?_filterMap_of_isSome (fun l hl => ?_) i
  rw [Option.isSome_map]
  exact isSome_placeOf? found l hl

theorem length_placements : (f.placements loci).length = loci.length := by
  refine List.filterMap_length_eq_length.mpr fun l hl => ?_
  rw [Option.isSome_map]
  exact isSome_placeOf? found l hl

end Places

theorem of_mem_placements {f : Function} {loci : List AssertLocus} {l : AssertLocus}
    {block : BlockId} {slot : Slot} (h : (l, block, slot) ∈ f.placements loci) :
    l ∈ loci ∧ f.PlacedAt (f.edgesToSplit loci) l.locus block slot := by
  obtain ⟨l', hl, place⟩ := List.mem_filterMap.mp h
  obtain ⟨⟨block', slot'⟩, place, same⟩ := Option.map_eq_some_iff.mp place
  cases same
  exact ⟨hl, placedAt_of_placeOf? place⟩

/-- The new statements with their places, one for each fact. -/
def insertionsFor (f : Function) (loci : List AssertLocus) : List Insertion :=
  (f.placements loci).zipIdx.map fun ((l, block, slot), i) =>
    { block, slot, stmt := .assign (f.nameCount + i) (.assert l.name l.predicate) }

/-- What is told about the new statements. -/
def recordsFor (f : Function) (loci : List AssertLocus) : List AssertionRecord :=
  (f.placements loci).zipIdx.map fun ((l, block, _), i) =>
    { subject := l.name, derived := f.nameCount + i, block, predicate := l.predicate }

/-- The function with an assertion for each fact that nothing reads yet. -/
def withAssertions (f : Function) (loci : List AssertLocus) : Function :=
  (f.splitAll (f.edgesToSplit loci)).insertAll
    ((f.placements loci).map fun (l, _) => ⟨f.typeOf l.name, .defined⟩) (f.insertionsFor loci)

section Asserted

variable {f : Function} {loci : List AssertLocus}

theorem mem_insertionsFor {x : Insertion} : x ∈ f.insertionsFor loci ↔
    ∃ i l block slot, (f.placements loci)[i]? = some (l, block, slot) ∧
      x = ⟨block, slot, .assign (f.nameCount + i) (.assert l.name l.predicate)⟩ := by
  simp only [insertionsFor, List.mem_map, Prod.exists, List.mem_zipIdx_iff_getElem?]
  constructor
  · rintro ⟨l, block, slot, i, h, rfl⟩
    exact ⟨i, l, block, slot, h, rfl⟩
  · rintro ⟨i, l, block, slot, h, rfl⟩
    exact ⟨l, block, slot, i, h, rfl⟩

theorem getElem?_recordsFor {i : Nat} {r : AssertionRecord} : (f.recordsFor loci)[i]? = some r ↔
    ∃ l block slot, (f.placements loci)[i]? = some (l, block, slot) ∧
      r = ⟨l.name, f.nameCount + i, block, l.predicate⟩ := by
  simp only [recordsFor, List.getElem?_map, List.getElem?_zipIdx, Option.map_map,
    Option.map_eq_some_iff, Prod.exists, Nat.zero_add, Function.comp]
  constructor
  · rintro ⟨l, block, slot, h, rfl⟩
    exact ⟨l, block, slot, h, rfl⟩
  · rintro ⟨l, block, slot, h, rfl⟩
    exact ⟨l, block, slot, h, rfl⟩

theorem length_recordsFor : (f.recordsFor loci).length = (f.placements loci).length := by
  simp [recordsFor]

theorem dests_insertionsFor : ((f.insertionsFor loci).map Insertion.stmt).filterMap Stmt.dest? =
    (List.range (f.placements loci).length).map (f.nameCount + ·) := by
  have indices : (f.placements loci).zipIdx.map Prod.snd =
      List.range (f.placements loci).length := by
    rw [List.zipIdx_map_snd, List.range_eq_range']
  rw [← indices, insertionsFor, List.map_map, List.map_map, List.filterMap_map]
  exact List.filterMap_eq_map_iff_forall_eq_some.mpr fun _ _ => rfl

theorem nameCount_withAssertions :
    (f.withAssertions loci).nameCount = f.nameCount + (f.placements loci).length := by
  simp [withAssertions, insertAll, splitAll, nameCount]

theorem typeOf_withAssertions_old {n : NameId} (h : n < f.nameCount) :
    (f.withAssertions loci).typeOf n = f.typeOf n := by
  simp only [typeOf, typeOf?, withAssertions, insertAll, splitAll]
  rw [List.getElem?_append_left h]

theorem typeOf_withAssertions_new {i : Nat} {l : AssertLocus} {place : BlockId × Slot}
    (h : (f.placements loci)[i]? = some (l, place)) :
    (f.withAssertions loci).typeOf (f.nameCount + i) = f.typeOf l.name := by
  simp only [typeOf, typeOf?, withAssertions, insertAll, splitAll, nameCount]
  rw [List.getElem?_append_right (Nat.le_add_right _ _), Nat.add_sub_cancel_left,
    List.getElem?_map, h]
  rfl

theorem renames_withAssertions : Renames f (f.withAssertions loci) fun n => n where
  lt n h := by
    rw [nameCount_withAssertions]
    exact Nat.lt_add_right _ h
  type n h := typeOf_withAssertions_old h

theorem renames_renameUses {r : Point → NameId → NameId} :
    Renames f ((f.withAssertions loci).renameUses r) fun n => n :=
  ⟨renames_withAssertions.lt, renames_withAssertions.type⟩

theorem defaultNames_withAssertions : (f.withAssertions loci).defaultNames = f.defaultNames := by
  have names : (f.withAssertions loci).names = f.names ++
      (f.placements loci).map fun p => ⟨f.typeOf p.1.name, .defined⟩ := rfl
  rw [defaultNames, defaultNames, names, List.zipIdx_append, List.filterMap_append]
  have none : (((f.placements loci).map fun p =>
      (⟨f.typeOf p.1.name, .defined⟩ : NameInfo)).zipIdx (0 + f.names.length)).filterMap
        (fun p => if p.1.origin.isDefault then some p.2 else none) = [] := by
    refine List.filterMap_eq_nil_iff.mpr ?_
    rintro ⟨info, n⟩ member
    obtain ⟨p, -, rfl⟩ := List.mem_map.mp (List.fst_mem_of_mem_zipIdx member)
    rfl
  rw [none, List.append_nil]

theorem block?_withAssertions_old {id : BlockId} (old : id < f.blockCount) :
    (f.withAssertions loci).block? id = (f.block? id).map fun b =>
      { b.redirect (f.forth (f.edgesToSplit loci) id) (f.back (f.edgesToSplit loci) id) with
        stmts := insertStmts (f.insertionsFor loci) id b.stmts } := by
  rw [withAssertions, block?_insertAll, block?_splitAll_old old, Option.map_map]
  rfl

theorem block?_withAssertions_new {i : Nat} :
    (f.withAssertions loci).block? (f.blockCount + i) =
      ((f.edgesToSplit loci)[i]?).map fun ends =>
        { splitBlock ends.2 with
          stmts := insertStmts (f.insertionsFor loci) (f.blockCount + i) [] } := by
  rw [withAssertions, block?_insertAll, block?_splitAll_new, Option.map_map]
  rfl

theorem outline_withAssertions : (f.withAssertions loci).blocks.map Block.outline =
    (f.splitAll (f.edgesToSplit loci)).blocks.map Block.outline := by
  rw [withAssertions, insertAll, List.map_map]
  calc (f.splitAll (f.edgesToSplit loci)).blocks.zipIdx.map _
      = ((f.splitAll (f.edgesToSplit loci)).blocks.zipIdx.map Prod.fst).map Block.outline := by
        rw [List.map_map]
        rfl
    _ = (f.splitAll (f.edgesToSplit loci)).blocks.map Block.outline := by rw [List.zipIdx_map_fst]

theorem outline_asserted {r : Point → NameId → NameId} :
    ((f.withAssertions loci).renameUses r).blocks.map Block.outline =
      (f.splitAll (f.edgesToSplit loci)).blocks.map Block.outline :=
  outline_renameUses.trans outline_withAssertions

theorem predecessors_withAssertions {r : Point → NameId → NameId} {t : BlockId} :
    ((f.withAssertions loci).renameUses r).predecessors t =
      (f.splitAll (f.edgesToSplit loci)).predecessors t := by
  rw [predecessors, predecessors, edges_of_outline outline_asserted]

section Found

variable {P : BlockId → Nat → NameId → Prop} (found : ∀ l ∈ loci, f.Registered P l)

include found

theorem materialize_eq (hf : f.Valid) : f.materialize loci =
    ((f.withAssertions loci).renameUses (nameAt (f.withAssertions loci).dominators
      ((f.withAssertions loci).assertionPoints (f.recordsFor loci))), f.recordsFor loci) := by
  rw [materialize, (splittable_edgesToSplit found).foldl_splitEdge hf]
  rfl

theorem fits_insertionsFor : (f.splitAll (f.edgesToSplit loci)).Fits (f.insertionsFor loci) := by
  intro x hx
  obtain ⟨i, l, block, slot, placed, rfl⟩ := mem_insertionsFor.mp hx
  obtain ⟨hl, place⟩ := of_mem_placements (List.mem_of_getElem? placed)
  have registered := found l hl
  unfold Registered at registered
  generalize l.locus = locus at place registered
  cases place with
  | after block index =>
      obtain ⟨⟨stmt, hstmt⟩, -⟩ := registered
      obtain ⟨b, hb, hi⟩ := stmtAt?_eq_some.mp hstmt
      refine ⟨_, by rw [block?_splitAll_old (List.getElem?_eq_some_iff.mp hb).1, hb]; rfl, ?_⟩
      refine List.mem_cons_of_mem _ (List.mem_map.mpr ⟨index, ?_, rfl⟩)
      exact List.mem_range.mpr (List.getElem?_eq_some_iff.mp hi).1
  | split he hi => exact ⟨_, by rw [block?_splitAll_new, hi]; rfl, List.mem_cons_self ..⟩
  | @head id e he single =>
      obtain ⟨-, t, -, -, ht, -⟩ := mem_edges.mp (mem_edges_of_edge? he)
      exact ⟨_, by rw [block?_splitAll_old (List.getElem?_eq_some_iff.mp ht).1, ht]; rfl,
        List.mem_cons_self ..⟩

/-- The statements are the old ones and one assertion for each fact. -/
theorem stmts_withAssertions_perm : ((f.withAssertions loci).blocks.flatMap Block.stmts).Perm
    (f.blocks.flatMap Block.stmts ++ (f.insertionsFor loci).map Insertion.stmt) := by
  have same : (f.splitAll (f.edgesToSplit loci)).blocks.flatMap Block.stmts =
      f.blocks.flatMap Block.stmts := by
    have none : ((f.edgesToSplit loci).map fun ends => (splitBlock ends.2).stmts).flatten = [] := by
      simp [splitBlock, Block.ofTerminator]
    rw [List.flatMap_def, map_blocks_splitAll _ fun _ _ _ => rfl, List.flatten_append, none,
      List.append_nil, List.flatMap_def]
  rw [← same]
  exact (fits_insertionsFor found).stmts_perm

/-- The definitions are the old ones and one new name for each fact. -/
theorem defs_withAssertions_perm : ((f.withAssertions loci).blocks.flatMap Block.defs).Perm
    (f.blocks.flatMap Block.defs ++
      (List.range (f.placements loci).length).map (f.nameCount + ·)) := by
  -- merges are as before; only the statements gain definitions
  have parts : ∀ g : Function, (g.blocks.flatMap Block.defs).Perm
      (g.blocks.flatMap (fun b => b.phis.map Phi.dest) ++
        (g.blocks.flatMap Block.stmts).filterMap Stmt.dest?) := by
    intro g
    have stmts : g.blocks.flatMap (fun b => b.stmts.filterMap Stmt.dest?) =
        (g.blocks.flatMap Block.stmts).filterMap Stmt.dest? := by
      rw [List.filterMap_flatMap]
    rw [← stmts]
    exact (List.flatMap_append_perm g.blocks _ _).symm
  have phis : (f.withAssertions loci).blocks.flatMap (fun b => b.phis.map Phi.dest) =
      f.blocks.flatMap fun b => b.phis.map Phi.dest := by
    have none : ((f.edgesToSplit loci).map fun ends =>
        (splitBlock ends.2).phis.map Phi.dest).flatten = [] := by
      simp [splitBlock, Block.ofTerminator]
    have inserted : (f.withAssertions loci).blocks.map (fun b => b.phis.map Phi.dest) =
        (f.splitAll (f.edgesToSplit loci)).blocks.map fun b => b.phis.map Phi.dest := by
      rw [withAssertions, insertAll, List.map_map]
      calc (f.splitAll (f.edgesToSplit loci)).blocks.zipIdx.map _
          = ((f.splitAll (f.edgesToSplit loci)).blocks.zipIdx.map Prod.fst).map
              fun b => b.phis.map Phi.dest := by
            rw [List.map_map]
            rfl
        _ = _ := by rw [List.zipIdx_map_fst]
    have redirected : ∀ forth back b,
        (Block.redirect forth back b).phis.map Phi.dest = b.phis.map Phi.dest := by
      intro forth back b
      rw [Block.redirect, List.map_map]
      rfl
    rw [List.flatMap_def, inserted, map_blocks_splitAll _ redirected, List.flatten_append, none,
      List.append_nil, List.flatMap_def]
  have stmts := (stmts_withAssertions_perm found).filterMap Stmt.dest?
  rw [List.filterMap_append, dests_insertionsFor] at stmts
  refine (parts _).trans ?_
  rw [phis]
  refine (stmts.append_left _).trans ?_
  rw [← List.append_assoc]
  exact (parts f).symm.append_right _

end Found

/-- A statement of the function with assertions is an old one, or the assertion of a fact, which
    stands behind the statement it belongs to. -/
theorem of_stmtAt?_withAssertions {id : BlockId} {j : Nat} {stmt : Stmt}
    (h : (f.withAssertions loci).stmtAt? id j = some stmt) :
    (∃ i, f.stmtAt? id i = some stmt ∧ j = newIndex (f.insertionsFor loci) id i) ∨
      ∃ i l slot, (f.placements loci)[i]? = some (l, id, slot) ∧
        stmt = .assign (f.nameCount + i) (.assert l.name l.predicate) ∧
        ∀ k, slot = .after k → newIndex (f.insertionsFor loci) id k < j := by
  have inserted : ∀ x ∈ f.insertionsFor loci, x.block = id → x.stmt = stmt →
      (∀ k, x.slot = .after k → newIndex (f.insertionsFor loci) id k < j) →
      ∃ i l slot, (f.placements loci)[i]? = some (l, id, slot) ∧
        stmt = .assign (f.nameCount + i) (.assert l.name l.predicate) ∧
        ∀ k, slot = .after k → newIndex (f.insertionsFor loci) id k < j := by
    rintro x hx rfl rfl later
    obtain ⟨i, l, block, slot, placed, rfl⟩ := mem_insertionsFor.mp hx
    exact ⟨i, l, slot, placed, rfl, later⟩
  obtain ⟨b, hb, hj⟩ := stmtAt?_eq_some.mp h
  by_cases old : id < f.blockCount
  · rw [block?_withAssertions_old old] at hb
    obtain ⟨b₀, hb₀, rfl⟩ := Option.map_eq_some_iff.mp hb
    rcases of_getElem?_insertStmts hj with ⟨i, hi, at_⟩ | ⟨x, hx, here, same, later⟩
    · exact .inl ⟨i, stmtAt?_eq_some.mpr ⟨b₀, hb₀, hi⟩, at_⟩
    · exact .inr (inserted x hx here same later)
  · obtain ⟨i, rfl⟩ := Nat.exists_eq_add_of_le (Nat.le_of_not_lt old)
    rw [block?_withAssertions_new] at hb
    obtain ⟨ends, -, rfl⟩ := Option.map_eq_some_iff.mp hb
    rcases of_getElem?_insertStmts hj with ⟨k, hk, -⟩ | ⟨x, hx, here, same, later⟩
    · cases hk
    · exact .inr (inserted x hx here same later)

section Valid

variable (found : ∀ l ∈ loci, f.Registered (fun _ _ n => n < f.nameCount) l)

include found

/-- An assertion of a fact has operands of the right types. -/
theorem checkRhs_assertion {l : AssertLocus} (hl : l ∈ loci) :
    f.checkRhs (f.typeOf l.name) (.assert l.name l.predicate) = .ok () := by
  have known := (found l hl).reads
  refine bind_eq_ok.mpr ⟨(), forM_eq_ok.mpr fun o ho => checkName_eq_ok.mpr ?_, ?_⟩
  · rintro n rfl
    exact known n (List.mem_cons_of_mem _ (List.mem_filterMap.mpr ⟨.name n, ho, rfl⟩))
  · exact checkOperand_eq_ok.mpr ⟨known l.name (List.mem_cons_self ..), rfl⟩

variable (hf : f.Valid) {r : Point → NameId → NameId}
  (keeps : ∀ p, Renames f ((f.withAssertions loci).renameUses r) (r p))

include hf keeps

theorem checkPhi_withAssertions {id : BlockId} {b : Block} {phi : Phi}
    (hb : ((f.withAssertions loci).renameUses r).block? id = some b) (hphi : phi ∈ b.phis) :
    ((f.withAssertions loci).renameUses r).checkPhi id phi = .ok () := by
  have ok := splittable_edgesToSplit found
  rw [block?_renameUses] at hb
  obtain ⟨b₁, hb₁, rfl⟩ := Option.map_eq_some_iff.mp hb
  by_cases old : id < f.blockCount
  · rw [block?_withAssertions_old old] at hb₁
    obtain ⟨b₀, hb₀, rfl⟩ := Option.map_eq_some_iff.mp hb₁
    obtain ⟨phi₁, hphi₁, rfl⟩ := List.mem_map.mp hphi
    obtain ⟨phi₀, hphi₀, rfl⟩ := List.mem_map.mp hphi₁
    obtain ⟨dest, arity, operands, complete⟩ := checkPhi_eq_ok.mp (hf.phis id b₀ hb₀ phi₀ hphi₀)
    have preds : (((f.withAssertions loci).renameUses r).predecessors id).Perm
        ((f.predecessors id).map (f.back (f.edgesToSplit loci) id)) := by
      rw [predecessors_withAssertions]
      exact ok.predecessors_perm hf old
    have behind : ∀ o ∈ phi₀.operands, f.back (f.edgesToSplit loci) id o.predecessor ∈
        ((f.withAssertions loci).renameUses r).predecessors id := fun o ho =>
      preds.mem_iff.mpr (List.mem_map_of_mem (operands o ho).2.1)
    refine checkPhi_eq_ok.mpr ⟨renames_renameUses.lt _ dest, ?_, ?_, ?_⟩
    · simp only [Phi.redirect, List.length_map, arity, preds.length_eq]
    · intro o ho
      simp only [Phi.redirect, List.mem_map, exists_exists_and_eq_and] at ho
      obtain ⟨o, ho, rfl⟩ := ho
      refine ⟨?_, behind o ho, ?_⟩
      · exact src_lt_of_mem_predecessors (behind o ho)
      · have typed := (keeps ⟨f.back (f.edgesToSplit loci) id o.predecessor, .blockEnd⟩).typed
          (operands o ho).2.2
        rw [← renames_renameUses.type _ dest] at typed
        exact typed
    · intro p hp
      obtain ⟨q, hq, rfl⟩ := List.mem_map.mp (preds.mem_iff.mp hp)
      obtain ⟨o, ho, rfl⟩ := isSome_operandFrom?.mp (complete q hq)
      refine isSome_operandFrom?.mpr ?_
      simp only [Phi.redirect, List.mem_map, exists_exists_and_eq_and]
      exact ⟨o, ho, rfl⟩
  · obtain ⟨i, rfl⟩ := Nat.exists_eq_add_of_le (Nat.le_of_not_lt old)
    rw [block?_withAssertions_new] at hb₁
    obtain ⟨ends, -, rfl⟩ := Option.map_eq_some_iff.mp hb₁
    simp [renameBlock, splitBlock, Block.ofTerminator] at hphi

theorem checkStmt_withAssertions {id : BlockId} {b : Block} {stmt : Stmt}
    (hb : ((f.withAssertions loci).renameUses r).block? id = some b) (hstmt : stmt ∈ b.stmts) :
    ((f.withAssertions loci).renameUses r).checkStmt stmt = .ok () := by
  rw [block?_renameUses] at hb
  obtain ⟨b₁, hb₁, rfl⟩ := Option.map_eq_some_iff.mp hb
  obtain ⟨⟨stmt, index⟩, member, rfl⟩ := List.mem_map.mp hstmt
  have at_ : (f.withAssertions loci).stmtAt? id index = some stmt :=
    stmtAt?_eq_some.mpr ⟨b₁, hb₁, by simpa using List.mem_zipIdx_iff_getElem?.mp member⟩
  rcases of_stmtAt?_withAssertions at_ with ⟨i, old, -⟩ | ⟨i, l, slot, placed, rfl, -⟩
  · obtain ⟨b₀, hb₀, hi⟩ := stmtAt?_eq_some.mp old
    apply (keeps _).checkStmt renames_renameUses
    exact hf.stmts id b₀ hb₀ stmt (List.mem_of_getElem? hi)
  · have hl := (of_mem_placements (List.mem_of_getElem? placed)).1
    have known : f.nameCount + i < ((f.withAssertions loci).renameUses r).nameCount := by
      rw [nameCount_renameUses, nameCount_withAssertions]
      exact Nat.add_lt_add_left (List.getElem?_eq_some_iff.mp placed).1 _
    have type : ((f.withAssertions loci).renameUses r).typeOf (f.nameCount + i) =
        f.typeOf l.name := by rw [typeOf_renameUses, typeOf_withAssertions_new placed]
    refine bind_eq_ok.mpr ⟨f.typeOf l.name, ?_, (keeps _).checkRhs (checkRhs_assertion found hl)⟩
    rw [checkedType, typeOf?_eq_some known, type]

omit found in
theorem checkTerminator_withAssertions {id : BlockId} {b : Block}
    (hb : ((f.withAssertions loci).renameUses r).block? id = some b) :
    ((f.withAssertions loci).renameUses r).checkTerminator b.terminator = .ok () := by
  rw [block?_renameUses] at hb
  obtain ⟨b₁, hb₁, rfl⟩ := Option.map_eq_some_iff.mp hb
  by_cases old : id < f.blockCount
  · rw [block?_withAssertions_old old] at hb₁
    obtain ⟨b₀, hb₀, rfl⟩ := Option.map_eq_some_iff.mp hb₁
    apply (keeps _).checkTerminator
    exact checkTerminator_retarget (hf.terminators id b₀ hb₀)
  · obtain ⟨i, rfl⟩ := Nat.exists_eq_add_of_le (Nat.le_of_not_lt old)
    rw [block?_withAssertions_new] at hb₁
    obtain ⟨ends, -, rfl⟩ := Option.map_eq_some_iff.mp hb₁
    rfl

/-- With names of the right types in place of those read, the function is valid. -/
theorem valid_withAssertions : ((f.withAssertions loci).renameUses r).Valid := by
  have ok := splittable_edgesToSplit found
  have defs := defs_withAssertions_perm found
  rw [← defs_renameUses (r := r)] at defs
  have blocks : ((f.withAssertions loci).renameUses r).blockCount =
      f.blockCount + (f.edgesToSplit loci).length :=
    (blockCount_of_outline outline_asserted).trans blockCount_splitAll
  constructor
  case nonempty =>
    intro empty
    have positive : 0 < f.blockCount := List.length_pos_iff.mpr hf.nonempty
    rw [blockCount, empty, List.length_nil] at blocks
    omega
  case targets =>
    intro b hb t ht
    obtain ⟨id, hid⟩ := List.mem_iff_getElem?.mp hb
    have fed : (f.splitAll (f.edgesToSplit loci)).Feeds id t :=
      feeds_of_outline outline_asserted ⟨b, hid, ht⟩
    rw [blocks]
    rcases (ok.feeds_iff hf).mp fed with ⟨fed, -⟩ | ⟨i, _, hi, rfl⟩ | ⟨i, _, hi, -⟩
    · exact Nat.lt_add_right _ (hf.feeds_lt fed).2
    · exact Nat.add_lt_add_left (List.getElem?_eq_some_iff.mp hi).1 _
    · exact Nat.lt_add_right _ (hf.feeds_lt (ok.feeds (List.mem_of_getElem? hi))).2
  case defsExist =>
    intro n hn
    rw [nameCount_renameUses, nameCount_withAssertions]
    rcases List.mem_append.mp (defs.mem_iff.mp hn) with old | new
    · exact Nat.lt_add_right _ (hf.defsExist n old)
    · obtain ⟨i, hi, rfl⟩ := List.mem_map.mp new
      exact Nat.add_lt_add_left (List.mem_range.mp hi) _
  case defsNodup =>
    refine defs.nodup_iff.mpr (List.nodup_append.mpr ⟨hf.defsNodup, ?_, ?_⟩)
    · exact List.nodup_range.map fun _ _ => Nat.add_left_cancel
    · intro n old m new same
      obtain ⟨i, -, rfl⟩ := List.mem_map.mp new
      exact absurd (hf.defsExist n old) (Nat.not_lt.mpr (same ▸ Nat.le_add_right _ _))
  case defsNew =>
    intro n hn isDefault
    rw [defaultNames_renameUses, defaultNames_withAssertions] at isDefault
    rcases List.mem_append.mp (defs.mem_iff.mp hn) with old | new
    · exact hf.defsNew n old isDefault
    · obtain ⟨i, -, rfl⟩ := List.mem_map.mp new
      exact absurd (lt_of_mem_defaultNames isDefault) (Nat.not_lt.mpr (Nat.le_add_right _ _))
  case phis => exact fun id b hb phi hphi => checkPhi_withAssertions found hf keeps hb hphi
  case stmts => exact fun id b hb stmt hstmt => checkStmt_withAssertions found hf keeps hb hstmt
  case terminators => exact fun id b hb => checkTerminator_withAssertions hf keeps hb

end Valid

end Asserted

end Function

end RangeFlow
