import Mathlib.Data.List.Basic
import RangeFlow.Program.Tables
import RangeFlow.Proofs.Predecessors

/-! # Tables as they are filled

When the passes over the blocks and the names are done, the tables hold what is read off the
function: its edges in order, their numbers by blocks, and definitions and uses by names.
-/

namespace RangeFlow

namespace Tables

section Rows

variable {α : Type} {rows : Array (List α)} {row : Nat}

theorem getD_addEntry {target : Nat} {entry : α} :
    (addEntry rows target entry).getD row [] =
      if row < rows.size ∧ target = row then rows.getD row [] ++ [entry] else rows.getD row [] := by
  rw [addEntry, Array.getD_eq_getD_getElem?, Array.getElem?_modify, Array.getD_eq_getD_getElem?]
  by_cases inside : row < rows.size
  · by_cases same : target = row <;> simp [inside, same]
  · simp [inside]

/-- A row ends with the entries that were added to it, in order. -/
theorem getD_foldl_addEntry (entries : List (Nat × α)) (rows : Array (List α)) :
    (entries.foldl (fun rows e => addEntry rows e.1 e.2) rows).getD row [] =
      if row < rows.size then rows.getD row [] ++ (entries.filter (·.1 == row)).map Prod.snd
      else [] := by
  induction entries generalizing rows with
  | nil =>
      by_cases inside : row < rows.size <;> simp [Array.getD, inside]
  | cons e entries ih =>
      rw [List.foldl_cons, ih, getD_addEntry, addEntry, Array.size_modify]
      by_cases inside : row < rows.size
      · by_cases same : e.1 = row <;> simp [inside, same]
      · simp [inside]

/-- A place holds the last value that was put there. -/
theorem getD_foldl_setIfInBounds (entries : List (Nat × α)) (slots : Array (Option α)) (n : Nat) :
    (entries.foldl (fun slots e => slots.setIfInBounds e.1 (some e.2)) slots).getD n none =
      if n < slots.size then
        (((entries.filter (·.1 == n)).getLast?).map Prod.snd).or (slots.getD n none)
      else none := by
  induction entries generalizing slots with
  | nil => by_cases inside : n < slots.size <;> simp [Array.getD, inside]
  | cons e entries ih =>
      rw [List.foldl_cons, ih, Array.size_setIfInBounds, Array.getD_eq_getD_getElem?,
        Array.getD_eq_getD_getElem?, Array.getElem?_setIfInBounds]
      by_cases inside : n < slots.size
      · by_cases same : e.1 = n
        · subst same
          have first : (e :: entries).filter (·.1 == e.1) = e :: entries.filter (·.1 == e.1) :=
            List.filter_cons_of_pos (beq_self_eq_true e.1)
          rw [first, List.getLast?_cons]
          cases (entries.filter (·.1 == e.1)).getLast? <;> simp [inside]
        · simp [inside, same]
      · simp [inside]

end Rows

/-- The tables with some definitions and uses noted. -/
def note (t : Tables) (defs : List (NameId × DefSite)) (uses : List (NameId × UseSite)) : Tables :=
  { t with
    defs := defs.foldl (fun slots d => slots.setIfInBounds d.1 (some d.2)) t.defs
    uses := uses.foldl (fun rows u => addEntry rows u.1 u.2) t.uses }

theorem note_note {t : Tables} {defs defs' : List (NameId × DefSite)}
    {uses uses' : List (NameId × UseSite)} :
    (t.note defs uses).note defs' uses' = t.note (defs ++ defs') (uses ++ uses') := by
  simp [note]

/-- Steps that note something note all of it. -/
theorem foldl_note {β : Type} {step : Tables → β → Tables} {defs : β → List (NameId × DefSite)}
    {uses : β → List (NameId × UseSite)} (each : ∀ t x, step t x = t.note (defs x) (uses x))
    (l : List β) (t : Tables) : l.foldl step t = t.note (l.flatMap defs) (l.flatMap uses) := by
  induction l generalizing t with
  | nil => rfl
  | cons x l ih => rw [List.foldl_cons, ih, each, note_note, List.flatMap_cons, List.flatMap_cons]

theorem foldl_addUse (site : UseSite) (names : List NameId) (t : Tables) :
    names.foldl (addUse site) t = t.note [] (names.map (·, site)) := by
  have each : ∀ t n, addUse site t n = t.note [] [(n, site)] := fun _ _ => rfl
  rw [foldl_note each, List.map_eq_flatMap, List.flatMap_eq_nil_iff.mpr fun _ _ => rfl]

theorem addPhi_eq (id : BlockId) (t : Tables) (phi : Phi) (i : Nat) :
    addPhi id t (phi, i) = t.note [(phi.dest, .phi id i)]
      (phi.operands.filterMap fun o => o.value.name?.map (·, .phi id i o.predecessor)) := by
  have each : ∀ (t : Tables) (o : PhiOperand),
      o.value.name?.elim t (t.addUse (.phi id i o.predecessor)) =
        t.note [] (o.value.name?.map (·, .phi id i o.predecessor)).toList := by
    intro t o
    cases o.value.name? <;> rfl
  have dest : t.define (.phi id i) phi.dest = t.note [(phi.dest, .phi id i)] [] := rfl
  rw [addPhi, foldl_note each, dest, note_note, List.filterMap_eq_flatMap_toList,
    List.flatMap_eq_nil_iff.mpr fun _ _ => rfl, List.append_nil, List.nil_append]

theorem addStmt_eq (id : BlockId) (t : Tables) (stmt : Stmt) (i : Nat) :
    addStmt id t (stmt, i) = t.note (stmt.dest?.map (·, .stmt id i)).toList
      (stmt.usedNames.map (·, .stmt id i)) := by
  have dest : stmt.dest?.elim t (t.define (.stmt id i)) =
      t.note (stmt.dest?.map (·, .stmt id i)).toList [] := by
    cases stmt.dest? <;> rfl
  rw [addStmt, foldl_addUse, dest, note_note, List.append_nil, List.nil_append]

/-- Of a block, its definitions and uses are noted. -/
theorem addNames_eq (t : Tables) (block : Block) (id : BlockId) :
    t.addNames (block, id) = t.note (block.defSites id) (block.useSites id) := by
  have merges : (block.phis.zipIdx.flatMap fun p => [(p.1.dest, DefSite.phi id p.2)]) =
      block.phis.zipIdx.map fun p => (p.1.dest, .phi id p.2) := List.map_eq_flatMap.symm
  rw [addNames, foldl_addUse, foldl_note fun t p => addStmt_eq id t p.1 p.2,
    foldl_note fun t p => addPhi_eq id t p.1 p.2, note_note, note_note, merges, List.append_nil,
    Block.defSites, List.filterMap_eq_flatMap_toList, Block.useSites, List.append_assoc]

theorem addDefault_eq (t : Tables) (info : NameInfo) (n : NameId) :
    t.addDefault (info, n) =
      t.note (if info.origin.isDefault then some (n, .default) else none).toList [] := by
  rw [addDefault]
  split <;> rfl

/-- The edges of a block get numbers in the order of its outgoing targets. -/
theorem addTargets_eq (f : Function) (t : Tables) (block : Block) (src : BlockId) :
    t.addTargets f (block, src) =
      (block.outgoing.filterMap fun (dst, flags) => (f.blocks.toArray[dst]?).map fun target =>
        ({ src, dst, flags := { flags with split := block.split || target.split } } : Edge)).foldl
        addEdge t := by
  rw [List.foldl_filterMap, addTargets]
  congr 1
  funext t ⟨dst, flags⟩
  dsimp only
  rw [List.getElem?_toArray, Function.block?]
  cases f.blocks[dst]? <;> rfl

/-- Edges are listed in their order, and their numbers with the blocks at their ends. -/
theorem foldl_addEdge (edges : List Edge) (t : Tables) :
    edges.foldl addEdge t =
      { t with
        edges := t.edges ++ edges
        succs := ((edges.zipIdx t.edges.length).map fun p => (p.1.src, p.2)).foldl
          (fun rows e => addEntry rows e.1 e.2) t.succs
        preds := ((edges.zipIdx t.edges.length).map fun p => (p.1.dst, p.2)).foldl
          (fun rows e => addEntry rows e.1 e.2) t.preds } := by
  induction edges generalizing t with
  | nil => simp
  | cons e edges ih =>
      rw [List.foldl_cons, ih]
      simp [addEdge]

end Tables

namespace Function

/-- The passes number the edges, then note the definitions and the uses. -/
theorem tables_eq (f : Function) :
    f.tables =
      (f.edges.foldl Tables.addEdge (.empty f.blockCount f.nameCount)).note f.defSites
        f.useSites := by
  have edges : f.blocks.zipIdx.foldl (Tables.addTargets f) (.empty f.blockCount f.nameCount) =
      f.edges.foldl Tables.addEdge (.empty f.blockCount f.nameCount) := by
    rw [Function.edges, List.foldl_flatMap]
    congr 1
    funext t p
    exact Tables.addTargets_eq f t p.1 p.2
  -- the pass over the names notes no uses
  have unread : f.names.zipIdx.flatMap (fun _ => ([] : List (NameId × UseSite))) = [] :=
    List.flatMap_eq_nil_iff.mpr fun _ _ => rfl
  rw [tables, edges, Tables.foldl_note fun t p => Tables.addNames_eq t p.1 p.2,
    Tables.foldl_note fun t p => Tables.addDefault_eq t p.1 p.2, Tables.note_note, unread, defSites,
    useSites, List.filterMap_eq_flatMap_toList, List.nil_append]

end Function

namespace Tables

/-- A table gives the answers that are computed from a function. -/
structure Agrees (t : Tables) (f : Function) : Prop where
  edges : t.edges = f.edges
  succEdges : ∀ block, t.succEdges block = f.succEdges block
  predEdges : ∀ block, t.predEdges block = f.predEdges block
  predecessors : ∀ block, t.predecessors block = f.predecessors block
  defSite? : ∀ name, t.defSite? name = f.defSite? name
  uses : ∀ name, t.usesOf name = f.uses name

/-- Rows of edge numbers, listed with the blocks at one of their ends. -/
theorem getD_numbers {edges : List Edge} {size : Nat} (place : Edge → BlockId)
    (inside : ∀ e ∈ edges, place e < size) (block : BlockId) :
    ((edges.zipIdx.map fun p => (place p.1, p.2)).foldl (fun rows e => addEntry rows e.1 e.2)
        (.replicate size [])).getD block [] =
      (edges.zipIdx.filter fun p => place p.1 == block).map Prod.snd := by
  rw [getD_foldl_addEntry, Array.size_replicate, List.filter_map, List.map_map]
  split
  · next here =>
      rw [Array.getD_eq_getD_getElem?, Array.getElem?_replicate, if_pos here]
      rfl
  · next outside =>
      -- a row that does not exist loses nothing, as no edge is listed there
      have none : edges.zipIdx.filter (fun p => place p.1 == block) = [] := by
        refine List.filter_eq_nil_iff.mpr fun p member same => outside ?_
        rw [← beq_iff_eq.mp same]
        exact inside p.1 (List.fst_mem_of_mem_zipIdx member)
      rw [none]
      rfl

end Tables

namespace Function

theorem mem_edges_lt {f : Function} {e : Edge} (h : e ∈ f.edges) :
    e.src < f.blockCount ∧ e.dst < f.blockCount := by
  obtain ⟨block, target, -, source, dest, -⟩ := mem_edges.mp h
  exact ⟨(List.getElem?_eq_some_iff.mp source).1, (List.getElem?_eq_some_iff.mp dest).1⟩

/-- The sources of the edges into a block, by the numbers of these edges. -/
theorem filterMap_predEdges (f : Function) (block : BlockId) :
    ((f.predEdges block).filterMap fun id => (f.edges[id]?).map Edge.src) =
      f.predecessors block := by
  have source : ∀ p ∈ f.edges.zipIdx.filter (fun p => p.1.dst == block),
      (f.edges[p.2]?).map Edge.src = some p.1.src := by
    intro p member
    rw [List.mem_zipIdx_iff_getElem?.mp (List.mem_filter.mp member).1]
    rfl
  calc (f.predEdges block).filterMap fun id => (f.edges[id]?).map Edge.src
    _ = (f.edges.zipIdx.filter fun p => p.1.dst == block).filterMap fun p =>
        (f.edges[p.2]?).map Edge.src := by
      rw [predEdges, edgesWhere, List.filterMap_map]
      rfl
    _ = (f.edges.zipIdx.filter fun p => p.1.dst == block).filterMap fun p => some p.1.src :=
      List.filterMap_congr source
    _ = f.predecessors block := by
      rw [predecessors, ← map_fst_filter_zipIdx f.edges fun e => e.dst == block, List.map_map]
      exact congrFun List.filterMap_eq_map _

/-- The tables of a function agree with it. -/
theorem tables_agree (f : Function) : f.tables.Agrees f := by
  have edges : f.tables.edges = f.edges := by
    rw [tables_eq, Tables.foldl_addEdge]
    exact List.nil_append _
  have preds : ∀ block, f.tables.predEdges block = f.predEdges block := by
    intro block
    rw [tables_eq, Tables.foldl_addEdge]
    exact Tables.getD_numbers Edge.dst (fun e he => (mem_edges_lt he).2) block
  refine ⟨edges, fun block => ?_, preds, fun block => ?_, fun name => ?_, fun name => ?_⟩
  · rw [tables_eq, Tables.foldl_addEdge]
    exact Tables.getD_numbers Edge.src (fun e he => (mem_edges_lt he).1) block
  · rw [Tables.predecessors, preds, edges, filterMap_predEdges]
  · have slots : f.tables.defs = f.defSites.foldl
        (fun slots d => slots.setIfInBounds d.1 (some d.2)) (.replicate f.nameCount none) := by
      rw [tables_eq, Tables.foldl_addEdge]
      rfl
    rw [Tables.defSite?, slots, Tables.getD_foldl_setIfInBounds, Array.size_replicate, defSite?]
    by_cases inside : name < f.nameCount <;> simp [inside]
  · have rows : f.tables.uses = f.useSites.foldl
        (fun rows u => Tables.addEntry rows u.1 u.2) (.replicate f.nameCount []) := by
      rw [tables_eq, Tables.foldl_addEdge]
      rfl
    rw [Tables.usesOf, rows, Tables.getD_foldl_addEntry, Array.size_replicate, uses]
    by_cases inside : name < f.nameCount <;> simp [inside]

end Function

end RangeFlow
