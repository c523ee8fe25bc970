import RangeFlow.Proofs.Nearest

/-! # Assertions and single assignment form

The function with assertions is again in single assignment form: it passes validation, and every use
is dominated by its definition. The assertion of a fact on an edge stands where control can only come
by the edge, and a use that follows assertions about its name reads the nearest of them. The entry
block is the exception: it is entered at the start of the function too, so a single edge into it is
not the only way to it.
-/

namespace RangeFlow

theorem zipIdx_map_zipIdx {α β : Type} (l : List α) (c : α → Nat → β) :
    (l.zipIdx.map fun p => c p.1 p.2).zipIdx = l.zipIdx.map fun p => (c p.1 p.2, p.2) := by
  apply List.ext_getElem?
  intro i
  simp [Function.comp_def]

namespace Function

section DefSites

variable {f : Function} {r : Point → NameId → NameId}

theorem defSites_renameBlock (b : Block) (id block : BlockId) :
    (renameBlock r id b).defSites block = b.defSites block := by
  rw [renameBlock_eq]
  unfold Block.defSites
  dsimp only
  congr 1
  · rw [List.zipIdx_map, List.map_map]
    rfl
  · rw [zipIdx_map_zipIdx b.stmts fun s i => s.rename (r ⟨id, .before i⟩), List.filterMap_map]
    apply List.filterMap_congr
    intro p _
    simp

/-- Renaming what is read does not move definitions. -/
theorem defSite?_renameUses (n : NameId) : (f.renameUses r).defSite? n = f.defSite? n := by
  have inner : (f.renameUses r).innerDefs = f.innerDefs := by
    unfold innerDefs renameUses
    dsimp only
    rw [zipIdx_map_zipIdx f.blocks fun b id => renameBlock r id b, List.flatMap_map]
    apply List.flatMap_congr
    intro p _
    exact defSites_renameBlock p.1 p.2 p.2
  have all : (f.renameUses r).defSites = f.defSites := by
    change _ ++ (f.renameUses r).innerDefs = _ ++ f.innerDefs
    rw [inner]
    rfl
  simp only [defSite?, all, nameCount_renameUses]

/-- Renaming what is read does not change where names are set. -/
theorem Dominated.renameUses {n : NameId} {block : BlockId} {index : Nat}
    (h : f.Dominated n block index) : (f.renameUses r).Dominated n block index := by
  obtain ⟨site, hsite, dominates⟩ := h
  refine ⟨site, ?_, fun d k place passed way => ?_⟩
  · rw [defSite?_renameUses]
    exact hsite
  · exact dominates d k place passed (path_of_outline outline_renameUses way)

theorem mem_defaultNames_of_defSite? {n : NameId} (h : f.defSite? n = some .default) :
    n ∈ f.defaultNames := by
  rcases mem_defSites.mp (mem_of_defSite? h) with ⟨-, before⟩ | inner
  · exact before
  · obtain ⟨p, -, listed⟩ := List.mem_flatMap.mp inner
    rcases List.mem_append.mp listed with phi | stmt
    · obtain ⟨_, -, here⟩ := List.mem_map.mp phi
      cases here
    · obtain ⟨_, -, here⟩ := List.mem_filterMap.mp stmt
      obtain ⟨_, -, here⟩ := Option.map_eq_some_iff.mp here
      cases here

/-- A name with a value before the entry block has no other definition. -/
theorem Valid.defSite?_default (hf : f.Valid) {n : NameId} (h : n ∈ f.defaultNames) :
    f.defSite? n = some .default :=
  hf.defSite?_of_mem (mem_defSites.mpr (.inl ⟨rfl, h⟩))

theorem defined_of_defSite? {n : NameId} {site : DefSite} (h : f.defSite? n = some site) :
    n ∈ f.defaultNames ∨ n ∈ f.blocks.flatMap Block.defs := by
  cases site with
  | default => exact .inl (mem_defaultNames_of_defSite? h)
  | phi | stmt =>
      right
      rw [← map_fst_innerDefs]
      exact List.mem_map_of_mem ((mem_innerDefs_of_defSite? h).resolve_left (by simp))

end DefSites

section Entered

variable {f g : Function} {loci : List AssertLocus} {P : BlockId → Nat → NameId → Prop}

/-- Control comes to the end of a single edge only from its source. -/
theorem eq_src_of_feeds {id : EdgeId} {e : Edge} (he : f.edge? id = some e)
    (single : (f.predEdges e.dst).length = 1) {p : BlockId} (fed : f.Feeds p e.dst) : p = e.src := by
  obtain ⟨b, t, flags, hb, ht, out, -⟩ := mem_edges.mp (mem_edges_of_edge? he)
  have inside : e.dst < f.blockCount := (List.getElem?_eq_some_iff.mp ht).1
  have source : e.src ∈ f.predecessors e.dst :=
    (mem_predecessors inside).mpr ⟨b, hb, Block.mem_outgoing.mp ⟨flags, out⟩⟩
  have other : p ∈ f.predecessors e.dst := (mem_predecessors inside).mpr fed
  rw [length_predEdges] at single
  obtain ⟨q, only⟩ := List.length_eq_one_iff.mp single
  rw [only, List.mem_singleton] at source other
  rw [source, other]

/-- All paths to the block come from another block of the old function, along an old path. -/
def EnteredFrom (f g : Function) (src block : BlockId) : Prop :=
  ∀ passed, g.Path block passed → ∃ before, passed = src :: before ∧
    f.Path src (before.filter (· < f.blockCount))

variable (hf : f.Valid) (found : ∀ l ∈ loci, f.Registered P l)
  (outline : g.blocks.map Block.outline =
    (f.splitAll (f.edgesToSplit loci)).blocks.map Block.outline)

include hf found outline

theorem enteredFrom_split {i : Nat} {src dst : BlockId}
    (hi : (f.edgesToSplit loci)[i]? = some (src, dst)) : f.EnteredFrom g src (f.blockCount + i) := by
  intro passed way
  have split := (splittable_edgesToSplit found).path_old hf (path_of_outline outline way)
  exact split.2 i src dst hi rfl

/-- A block with one edge into it, other than the entry, is entered by that edge. -/
theorem enteredFrom_head {id : EdgeId} {e : Edge} (he : f.edge? id = some e)
    (single : (f.predEdges e.dst).length = 1) (inner : e.dst ≠ f.entry) :
    f.EnteredFrom g e.src e.dst := by
  have ok := splittable_edgesToSplit found
  intro passed way
  have way := path_of_outline outline way
  rcases way.cases_feeds with ⟨start, -⟩ | ⟨p, before, rfl, path, fed⟩
  · exact absurd start inner
  · rcases (ok.feeds_iff hf).mp fed with ⟨fed, -⟩ | ⟨i, _, -, same⟩ | ⟨i, src, hi, rfl⟩
    · obtain rfl := eq_src_of_feeds he single fed
      exact ⟨before, rfl, (ok.path_old hf path).1 (hf.feeds_lt fed).1⟩
    · obtain ⟨_, t, _, _, ht, -⟩ := mem_edges.mp (mem_edges_of_edge? he)
      have inside : e.dst < f.blockCount := (List.getElem?_eq_some_iff.mp ht).1
      exact absurd inside (Nat.not_lt.mpr (same ▸ Nat.le_add_right _ _))
    · -- an edge into the block would be split only if there were several
      have member := List.mem_of_getElem? hi
      obtain ⟨l, -, ends⟩ := List.mem_filterMap.mp (List.mem_eraseDups.mp member)
      cases locus : l.locus with
      | after block index =>
          rw [locus] at ends
          cases ends
      | edge id =>
          rw [locus] at ends
          obtain ⟨e', -, split⟩ := Option.bind_eq_some_iff.mp ends
          split at split
          · cases split
          · next several =>
              have same : e'.dst = e.dst := congrArg Prod.snd (Option.some.inj split)
              exact absurd (same ▸ single) several

end Entered

section Lifted

variable {f : Function} {loci : List AssertLocus} (hf : f.Valid)
  (found : ∀ l ∈ loci, f.Registered (fun _ _ n => n < f.nameCount) l)

include hf found

/-- The definition of a name in the function with assertions is its old one, and stands in front of
    what it stood in front of. -/
theorem defSite?_withAssertions {n : NameId} {site : DefSite} (h : f.defSite? n = some site) :
    ∃ site', (f.withAssertions loci).defSite? n = some site' ∧
      ∀ d k', site'.place? = some (d, k') → ∃ k, site.place? = some (d, k) ∧
        ∀ i, k ≤ i → k' ≤ newIndex (f.insertionsFor loci) d i := by
  have valid := withAssertions_valid hf found
  cases site with
  | default =>
      refine ⟨.default, valid.defSite?_default ?_, fun d k' place => by cases place⟩
      rw [defaultNames_withAssertions]
      exact mem_defaultNames_of_defSite? h
  | phi block index =>
      have inner := (mem_innerDefs_of_defSite? h).resolve_left (by simp)
      obtain ⟨phi, hphi, rfl⟩ := mem_innerDefs_phi.mp inner
      obtain ⟨b, hb, hi⟩ := phiAt?_eq_some.mp hphi
      have moved : (f.withAssertions loci).phiAt? block index =
          some (phi.redirect (f.back (f.edgesToSplit loci) block)) := by
        rw [phiAt?, block?_withAssertions_old (List.getElem?_eq_some_iff.mp hb).1, hb]
        simp [Block.redirect, hi]
      have site : (f.withAssertions loci).defSite? phi.dest = some (.phi block index) :=
        valid.defSite?_eq (mem_innerDefs_phi.mpr ⟨_, moved, rfl⟩)
      refine ⟨.phi block index, site, fun d k' place => ?_⟩
      cases place
      exact ⟨0, rfl, fun i _ => Nat.zero_le _⟩
  | stmt block index =>
      have inner := (mem_innerDefs_of_defSite? h).resolve_left (by simp)
      obtain ⟨stmt, hstmt, dest⟩ := mem_innerDefs_stmt.mp inner
      obtain ⟨b, hb, hi⟩ := stmtAt?_eq_some.mp hstmt
      have moved : (f.withAssertions loci).stmtAt? block
          (newIndex (f.insertionsFor loci) block index) = some stmt := by
        rw [stmtAt?, block?_withAssertions_old (List.getElem?_eq_some_iff.mp hb).1, hb]
        exact getElem?_insertStmts hi
      refine ⟨_, valid.defSite?_stmt moved dest, fun d k' place => ?_⟩
      cases place
      exact ⟨index + 1, rfl, fun i later => newIndex_lt later⟩

/-- A name that is set at a point of an old block is set there in the function with assertions. -/
theorem dominated_withAssertions {n : NameId} {block : BlockId} {i j : Nat}
    (old : block < f.blockCount) (h : f.Dominated n block i)
    (later : newIndex (f.insertionsFor loci) block i ≤ j) :
    (f.withAssertions loci).Dominated n block j := by
  obtain ⟨site, hsite, dominates⟩ := h
  obtain ⟨site', hsite', moved⟩ := defSite?_withAssertions hf found hsite
  refine ⟨site', hsite', fun d k' place passed way => ?_⟩
  obtain ⟨k, place, after⟩ := moved d k' place
  have way := path_of_outline outline_withAssertions way
  have path := ((splittable_edgesToSplit found).path_old hf way).1 old
  rcases dominates d k place _ path with ⟨rfl, le⟩ | member
  · exact .inl ⟨rfl, Nat.le_trans (after i le) later⟩
  · exact .inr (List.mem_of_mem_filter member)

/-- A name that is set at the end of a block is set in a block that is entered only from there. -/
theorem EnteredFrom.dominated {n : NameId} {src block : BlockId} {b : Block} {j : Nat}
    (entered : f.EnteredFrom (f.withAssertions loci) src block)
    (h : f.Dominated n src b.stmts.length) : (f.withAssertions loci).Dominated n block j := by
  obtain ⟨site, hsite, dominates⟩ := h
  obtain ⟨site', hsite', moved⟩ := defSite?_withAssertions hf found hsite
  refine ⟨site', hsite', fun d k' place passed way => ?_⟩
  obtain ⟨k, place, -⟩ := moved d k' place
  obtain ⟨before, rfl, path⟩ := entered passed way
  rcases dominates d k place _ path with ⟨rfl, -⟩ | member
  · exact .inr (List.mem_cons_self ..)
  · exact .inr (List.mem_cons_of_mem _ (List.mem_of_mem_filter member))

end Lifted

/-- Every name has the property where it is read. The operand of a merge is read at the end of the
    predecessor. -/
structure Reads (f : Function) (Q : BlockId → Nat → NameId → Prop) : Prop where
  stmt : ∀ block index stmt n, f.stmtAt? block index = some stmt → n ∈ stmt.usedNames →
    Q block index n
  terminator : ∀ block b n, f.block? block = some b → n ∈ b.terminator.usedNames →
    Q block b.stmts.length n
  phi : ∀ block index phi o n p, f.phiAt? block index = some phi → o ∈ phi.operands →
    o.value = .name n → f.block? o.predecessor = some p → Q o.predecessor p.stmts.length n

section Reads

variable {f : Function} {loci : List AssertLocus} (hf : f.Valid) (uses : f.UsesDominated)
  (dominated : ∀ l ∈ loci, f.Registered (fun block index n => f.Dominated n block index) l)

include hf uses dominated

/-- What the function with assertions reads before it is renamed was set in the old function at the
    point it stands for: a point of an old block, or the end of the source of an edge. -/
theorem reads_withAssertions {Q : BlockId → Nat → NameId → Prop}
    (old : ∀ block i j n, block < f.blockCount → f.Dominated n block i →
      newIndex (f.insertionsFor loci) block i ≤ j → Q block j n)
    (split : ∀ i src dst b j n, (f.edgesToSplit loci)[i]? = some (src, dst) →
      f.block? src = some b → f.Dominated n src b.stmts.length → Q (f.blockCount + i) j n)
    (head : ∀ id e b j n, f.edge? id = some e → (f.predEdges e.dst).length = 1 →
      f.block? e.src = some b → f.Dominated n e.src b.stmts.length → Q e.dst j n) :
    (f.withAssertions loci).Reads Q := by
  have ok := splittable_edgesToSplit dominated
  constructor
  case stmt =>
    intro block j stmt n hstmt hn
    rcases of_stmtAt?_withAssertions hstmt with ⟨i, was, rfl⟩ | ⟨i, l, slot, placed, rfl, later⟩
    · obtain ⟨b, hb, -⟩ := stmtAt?_eq_some.mp was
      exact old block i _ n (List.getElem?_eq_some_iff.mp hb).1
        (uses.stmt block i stmt n was hn) (Nat.le_refl _)
    · obtain ⟨hl, place⟩ := of_mem_placements (List.mem_of_getElem? placed)
      have registered := dominated l hl
      unfold Registered at registered
      generalize l.locus = locus at place registered
      cases place with
      | after block index =>
          obtain ⟨⟨stmt, hstmt⟩, names⟩ := registered
          obtain ⟨b, hb, -⟩ := stmtAt?_eq_some.mp hstmt
          exact old block index j n (List.getElem?_eq_some_iff.mp hb).1 (names n hn)
            (Nat.le_of_lt (later index rfl))
      | @split id e i he hi =>
          obtain ⟨e', b, he', -, hb, names⟩ := registered
          rw [he] at he'
          cases he'
          exact split i e.src e.dst b j n hi hb (names n hn)
      | @head id e he single =>
          obtain ⟨e', b, he', -, hb, names⟩ := registered
          rw [he] at he'
          cases he'
          exact head id e b j n he single hb (names n hn)
  case terminator =>
    intro block b n hb hn
    by_cases inside : block < f.blockCount
    · rw [block?_withAssertions_old inside] at hb
      obtain ⟨b₀, hb₀, rfl⟩ := Option.map_eq_some_iff.mp hb
      have read : n ∈ b₀.terminator.usedNames := by
        simpa [Block.redirect, Terminator.usedNames] using hn
      apply old block _ _ n inside (uses.terminator block b₀ n hb₀ read)
      exact Nat.le_of_eq length_insertStmts.symm
    · obtain ⟨i, rfl⟩ := Nat.exists_eq_add_of_le (Nat.le_of_not_lt inside)
      rw [block?_withAssertions_new] at hb
      obtain ⟨ends, -, rfl⟩ := Option.map_eq_some_iff.mp hb
      cases hn
  case phi =>
    intro block index phi o n p hphi ho value hp
    obtain ⟨b, hb, hi⟩ := phiAt?_eq_some.mp hphi
    by_cases inside : block < f.blockCount
    · rw [block?_withAssertions_old inside] at hb
      obtain ⟨b₀, hb₀, rfl⟩ := Option.map_eq_some_iff.mp hb
      simp only [Block.redirect, List.getElem?_map, Option.map_eq_some_iff] at hi
      obtain ⟨phi₀, hphi₀, rfl⟩ := hi
      obtain ⟨o₀, ho₀, rfl⟩ := List.mem_map.mp ho
      have at_ : f.phiAt? block index = some phi₀ := phiAt?_eq_some.mpr ⟨b₀, hb₀, hphi₀⟩
      obtain ⟨-, -, operands, -⟩ :=
        checkPhi_eq_ok.mp (hf.phis block b₀ hb₀ phi₀ (List.mem_of_getElem? hphi₀))
      have known := (operands o₀ ho₀).1
      have source : f.block? o₀.predecessor = some f.blocks[o₀.predecessor] :=
        List.getElem?_eq_getElem known
      have set := uses.phi block index phi₀ o₀ n _ at_ ho₀ value source
      dsimp only at hp ⊢
      cases bypass : f.bypass? (f.edgesToSplit loci) (o₀.predecessor, block) with
      | none =>
          have same : f.back (f.edgesToSplit loci) block o₀.predecessor = o₀.predecessor := by
            rw [back, bypass, Option.getD_none]
          rw [same] at hp ⊢
          rw [block?_withAssertions_old known, source] at hp
          cases hp
          apply old _ _ _ n known set
          exact Nat.le_of_eq length_insertStmts.symm
      | some new =>
          obtain ⟨i, hi, rfl⟩ := (bypass?_eq_some ok.nodup).mp bypass
          rw [ok.back_eq_new hi]
          exact split i _ _ _ _ n hi source set
    · obtain ⟨i, rfl⟩ := Nat.exists_eq_add_of_le (Nat.le_of_not_lt inside)
      rw [block?_withAssertions_new] at hb
      obtain ⟨ends, -, rfl⟩ := Option.map_eq_some_iff.mp hb
      cases hi

/-- Every name that the function with assertions reads has a definition in the old function. -/
theorem reads_defined : (f.withAssertions loci).Reads fun _ _ n => ∃ site, f.defSite? n = some site :=
  reads_withAssertions hf uses dominated (fun _ _ _ _ _ ⟨site, hsite, _⟩ _ => ⟨site, hsite⟩)
    (fun _ _ _ _ _ _ _ _ ⟨site, hsite, _⟩ => ⟨site, hsite⟩)
    (fun _ _ _ _ _ _ _ _ ⟨site, hsite, _⟩ => ⟨site, hsite⟩)

/-- Before it is renamed, the function with assertions reads only names that are set. -/
theorem reads_dominated (found : ∀ l ∈ loci, f.Registered (fun _ _ n => n < f.nameCount) l)
    (entered : (f.predEdges f.entry).length ≠ 1) :
    (f.withAssertions loci).Reads fun block index n =>
      (f.withAssertions loci).Dominated n block index := by
  apply reads_withAssertions hf uses dominated
  case old =>
    intro block i j n inside set later
    exact dominated_withAssertions hf found inside set later
  case split =>
    intro i src dst b j n hi hb set
    exact (enteredFrom_split hf found outline_withAssertions hi).dominated hf found set
  case head =>
    intro id e b j n he single hb set
    have inner : e.dst ≠ f.entry := fun start => entered (start ▸ single)
    exact (enteredFrom_head hf found outline_withAssertions he single inner).dominated hf found set

end Reads

end Function

/-- Where a name is read. -/
def UseSite.point : UseSite → Point
  | phi _ _ predecessor => ⟨predecessor, .blockEnd⟩
  | stmt block index => ⟨block, .before index⟩
  | terminator block => ⟨block, .blockEnd⟩

namespace Function

section Renamed

variable {f : Function} {r : Point → NameId → NameId}

theorem phiAt?_renameUses {block : BlockId} {index : Nat} :
    (f.renameUses r).phiAt? block index =
      (f.phiAt? block index).map (Phi.rename fun p => r ⟨p, .blockEnd⟩) := by
  rw [phiAt?, phiAt?, block?_renameUses]
  cases f.block? block with
  | none => rfl
  | some b => simp [renameBlock_eq]

/-- A use in the renamed function is a use in the function before. -/
theorem Reads.of_mem_useSites (hf : f.Valid) {Q : NameId → Prop} (reads : f.Reads fun _ _ n => Q n)
    {m : NameId} {site : UseSite} (h : (m, site) ∈ (f.renameUses r).useSites) :
    ∃ n, Q n ∧ m = r site.point n := by
  obtain ⟨⟨b, id⟩, hb, listed⟩ := List.mem_flatMap.mp h
  have hb := block?_of_mem_zipIdx hb
  rcases List.mem_append.mp listed with front | terminator
  · rcases List.mem_append.mp front with merged | stated
    · obtain ⟨⟨phi, index⟩, hphi, read⟩ := List.mem_flatMap.mp merged
      obtain ⟨o, ho, here⟩ := List.mem_filterMap.mp read
      obtain ⟨m', value, same⟩ := Option.map_eq_some_iff.mp here
      cases same
      have at_ : (f.renameUses r).phiAt? id index = some phi :=
        phiAt?_eq_some.mpr ⟨b, hb, by simpa using List.mem_zipIdx_iff_getElem?.mp hphi⟩
      rw [phiAt?_renameUses] at at_
      obtain ⟨phi₀, hphi₀, rfl⟩ := Option.map_eq_some_iff.mp at_
      obtain ⟨o₀, ho₀, rfl⟩ := List.mem_map.mp ho
      rw [Operand.name?_rename] at value
      obtain ⟨n, origin, rfl⟩ := Option.map_eq_some_iff.mp value
      refine ⟨n, ?_, rfl⟩
      obtain ⟨b₀, hb₀, hi⟩ := phiAt?_eq_some.mp hphi₀
      obtain ⟨-, -, operands, -⟩ := checkPhi_eq_ok.mp (hf.phis id b₀ hb₀ phi₀ (List.mem_of_getElem? hi))
      exact reads.phi id index phi₀ o₀ n _ hphi₀ ho₀ (Operand.name?_eq_some.mp origin)
        (List.getElem?_eq_getElem (operands o₀ ho₀).1)
    · obtain ⟨⟨stmt, index⟩, hstmt, read⟩ := List.mem_flatMap.mp stated
      obtain ⟨m', hm, same⟩ := List.mem_map.mp read
      cases same
      have at_ : (f.renameUses r).stmtAt? id index = some stmt :=
        stmtAt?_eq_some.mpr ⟨b, hb, by simpa using List.mem_zipIdx_iff_getElem?.mp hstmt⟩
      rw [stmtAt?_renameUses] at at_
      obtain ⟨stmt₀, hstmt₀, rfl⟩ := Option.map_eq_some_iff.mp at_
      rw [Stmt.usedNames_rename] at hm
      obtain ⟨n, hn, rfl⟩ := List.mem_map.mp hm
      exact ⟨n, reads.stmt id index stmt₀ n hstmt₀ hn, rfl⟩
  · obtain ⟨m', hm, same⟩ := List.mem_map.mp terminator
    cases same
    rw [block?_renameUses] at hb
    obtain ⟨b₀, hb₀, rfl⟩ := Option.map_eq_some_iff.mp hb
    rw [renameBlock_eq, Terminator.usedNames_rename] at hm
    obtain ⟨n, hn, rfl⟩ := List.mem_map.mp hm
    exact ⟨n, reads.terminator id b₀ n hb₀ hn, rfl⟩

end Renamed

end Function

/-- Every path to the second point passes the first, which is another one. -/
def Point.Precedes (f : Function) (a b : Point) : Prop :=
  ∀ passed, f.Path b.block passed →
    (a.block = b.block ∧ a.position.lt b.position = true) ∨ a.block ∈ passed

theorem Function.Valid.strictlyDominates_point {f : Function} (hf : f.Valid) {a b : Point}
    (h : a.strictlyDominates f.dominators b = true) : a.Precedes f b := by
  intro passed way
  unfold Point.strictlyDominates at h
  split at h
  · next same => exact .inl ⟨same, h⟩
  · exact .inr ((hf.strictlyDominates_iff.mp h).2.2 passed way)

/-- At points that can be reached, the computed dominators are those of the paths. -/
theorem Function.Valid.strictlyDominates_of_precedes {f : Function} (hf : f.Valid) {a b : Point}
    (reached : f.Reachable b.block) (h : a.Precedes f b) :
    a.strictlyDominates f.dominators b = true := by
  unfold Point.strictlyDominates
  split
  · next same =>
      obtain ⟨passed, way, simple⟩ := reached.simple
      rcases h passed way with ⟨-, before⟩ | again
      · exact before
      · exact absurd (same ▸ again) simple
  · next other =>
      apply hf.strictlyDominates_iff.mpr
      refine ⟨reached, other, fun passed way => ?_⟩
      rcases h passed way with ⟨same, -⟩ | passes
      · exact absurd same other
      · exact passes

theorem Point.Precedes.of_outline {f g : Function}
    (same : f.blocks.map Block.outline = g.blocks.map Block.outline) {a b : Point}
    (h : a.Precedes f b) : a.Precedes g b := fun passed way =>
  h passed (Function.path_of_outline same.symm way)

namespace AssertionRecord

/-- The assertion stands at the point. -/
def At (r : AssertionRecord) (g : Function) (p : Point) : Prop :=
  ∃ index subject predicate, p = ⟨r.block, .before index⟩ ∧
    g.stmtAt? r.block index = some (.assign r.derived (.assert subject predicate))

/-- The assertion stands where control comes only by the edge: in its target, or in a block of its
    own between its ends. -/
structure OnEdge (r : AssertionRecord) (f g : Function) (e : Edge) : Prop where
  place : r.block = e.dst ∨
    f.blockCount ≤ r.block ∧ ∃ b, g.block? r.block = some b ∧ b.terminator = .jump e.dst
  entered : f.EnteredFrom g e.src r.block

end AssertionRecord

/-- What is read for a name at a point is the result of the nearest of the assertions about the name
    that precede the point, and the name itself where none does. -/
def ReadsNearest (g : Function) (records : List AssertionRecord) (point : Point) (n m : NameId) :
    Prop :=
  (m = n ∧ ∀ r ∈ records, ∀ p, r.subject = n → r.At g p → ¬ p.Precedes g point) ∨
    ∃ r ∈ records, ∃ p, r.subject = n ∧ r.At g p ∧ p.Precedes g point ∧ m = r.derived ∧
      ∀ r' ∈ records, ∀ p', r'.subject = n → r'.At g p' → p'.Precedes g point →
        r' = r ∨ p'.Precedes g p

namespace Function

section Asserted

variable {f : Function} {loci : List AssertLocus} (hf : f.Valid)
  (found : ∀ l ∈ loci, f.Registered (fun _ _ n => n < f.nameCount) l)

include hf found

theorem valid_materialize : (f.materialize loci).1.Valid := by
  rw [materialize_eq found hf]
  apply valid_withAssertions found hf
  intro p
  have keeps := renames_nameAt hf found (f.withAssertions loci).dominators p
  exact ⟨keeps.lt, keeps.type⟩

/-- What is read in place of a name that is set at a point is set there. -/
theorem dominated_nameAt {n : NameId} {block : BlockId} {index : Nat} {position : Position}
    (order : ∀ i stmt, (f.withAssertions loci).stmtAt? block i = some stmt →
      (Position.before i).lt position = true → i < index)
    (h : (f.withAssertions loci).Dominated n block index) :
    (f.materialize loci).1.Dominated (nameAt (f.withAssertions loci).dominators
      ((f.withAssertions loci).assertionPoints (f.recordsFor loci)) ⟨block, position⟩ n)
        block index := by
  have valid := withAssertions_valid hf found
  rw [materialize_eq found hf]
  rcases @nameAt_cases (f.withAssertions loci).dominators
      ((f.withAssertions loci).assertionPoints (f.recordsFor loci)) ⟨block, position⟩ n with
    same | ⟨x, hx, -, above, derived⟩
  · rw [same]
    exact h.renameUses
  · rw [derived]
    obtain ⟨i, l, at_, slot, index', -, rfl, hstmt⟩ := (mem_assertionPoints hf found).mp hx
    apply Dominated.renameUses
    refine ⟨.stmt at_ index', valid.defSite?_stmt hstmt rfl, fun d k place passed way => ?_⟩
    cases place
    rcases valid.strictlyDominates_point above passed way with ⟨same, before⟩ | passes
    · dsimp only at same before
      subst same
      exact .inl ⟨rfl, order index' _ hstmt before⟩
    · exact .inr passes

theorem usesDominated_materialize (reads : (f.withAssertions loci).Reads fun block index n =>
    (f.withAssertions loci).Dominated n block index) : (f.materialize loci).1.UsesDominated := by
  have rename := @dominated_nameAt f loci hf found
  rw [materialize_eq found hf] at rename ⊢
  have inBlock : ∀ block b i stmt, (f.withAssertions loci).block? block = some b →
      (f.withAssertions loci).stmtAt? block i = some stmt → i < b.stmts.length := by
    intro block b i stmt hb hstmt
    obtain ⟨b', hb', hi⟩ := stmtAt?_eq_some.mp hstmt
    rw [hb] at hb'
    cases hb'
    exact (List.getElem?_eq_some_iff.mp hi).1
  constructor
  case stmt =>
    intro block index stmt m hstmt hm
    rw [stmtAt?_renameUses] at hstmt
    obtain ⟨stmt₀, hstmt₀, rfl⟩ := Option.map_eq_some_iff.mp hstmt
    rw [Stmt.usedNames_rename] at hm
    obtain ⟨n, hn, rfl⟩ := List.mem_map.mp hm
    apply rename _ (reads.stmt block index stmt₀ n hstmt₀ hn)
    intro i stmt _ before
    simpa [Position.lt] using before
  case terminator =>
    intro block b m hb hm
    rw [block?_renameUses] at hb
    obtain ⟨b₀, hb₀, rfl⟩ := Option.map_eq_some_iff.mp hb
    rw [renameBlock_eq] at hm ⊢
    rw [Terminator.usedNames_rename] at hm
    obtain ⟨n, hn, rfl⟩ := List.mem_map.mp hm
    simp only [List.length_map, List.length_zipIdx]
    apply rename _ (reads.terminator block b₀ n hb₀ hn)
    intro i stmt hstmt _
    exact inBlock block b₀ i stmt hb₀ hstmt
  case phi =>
    intro block index phi o m p hphi ho value hp
    rw [phiAt?_renameUses] at hphi
    obtain ⟨phi₀, hphi₀, rfl⟩ := Option.map_eq_some_iff.mp hphi
    obtain ⟨o₀, ho₀, rfl⟩ := List.mem_map.mp ho
    dsimp only at value hp ⊢
    rw [block?_renameUses] at hp
    obtain ⟨p₀, hp₀, rfl⟩ := Option.map_eq_some_iff.mp hp
    cases named : o₀.value with
    | const c =>
        rw [named] at value
        cases value
    | name n =>
        rw [named] at value
        cases value
        rw [renameBlock_eq]
        simp only [List.length_map, List.length_zipIdx]
        apply rename _ (reads.phi block index phi₀ o₀ n p₀ hphi₀ ho₀ named hp₀)
        intro i stmt hstmt _
        exact inBlock o₀.predecessor p₀ i stmt hp₀ hstmt

/-- Every name that the function with assertions reads is defined in it. -/
theorem defined_materialize (reads : (f.withAssertions loci).Reads fun _ _ n =>
      ∃ site, f.defSite? n = some site) {m : NameId} (read : (f.materialize loci).1.uses m ≠ []) :
    m ∈ (f.materialize loci).1.defaultNames ∨
      m ∈ (f.materialize loci).1.blocks.flatMap Block.defs := by
  rw [materialize_eq found hf] at read ⊢
  rw [defs_renameUses, defaultNames_renameUses, (defs_withAssertions_perm found).mem_iff,
    defaultNames_withAssertions]
  obtain ⟨site, member⟩ := List.exists_mem_of_ne_nil _ read
  unfold uses at member
  split at member
  · obtain ⟨⟨m', site'⟩, listed, rfl⟩ := List.mem_map.mp member
    obtain ⟨used, same⟩ := List.mem_filter.mp listed
    cases eq_of_beq same
    obtain ⟨n, ⟨site, hsite⟩, renamed⟩ := reads.of_mem_useSites (withAssertions_valid hf found) used
    rcases @nameAt_cases (f.withAssertions loci).dominators
        ((f.withAssertions loci).assertionPoints (f.recordsFor loci)) site'.point n with
      kept | ⟨x, hx, -, -, derived⟩
    · rw [renamed, kept]
      rcases defined_of_defSite? hsite with before | inner
      · exact .inl before
      · exact .inr (List.mem_append_left _ inner)
    · obtain ⟨i, l, block, slot, index, placed, rfl, -⟩ := (mem_assertionPoints hf found).mp hx
      rw [renamed, derived]
      refine .inr (List.mem_append_right _ (List.mem_map.mpr ⟨i, ?_, rfl⟩))
      exact List.mem_range.mpr (List.getElem?_eq_some_iff.mp placed).1
  · cases member

omit hf found in
theorem mem_recordsFor_of_mem_assertionPoints {x : AssertionRecord × Point}
    (hx : x ∈ (f.withAssertions loci).assertionPoints (f.recordsFor loci)) :
    x.1 ∈ f.recordsFor loci := by
  obtain ⟨r, hr, point⟩ := List.mem_filterMap.mp hx
  split at point
  · cases point
    exact hr
  · cases point

/-- The points of the assertions are where they stand. -/
theorem at_iff {rename : Point → NameId → NameId} {r : AssertionRecord} {p : Point}
    (hr : r ∈ f.recordsFor loci) : r.At ((f.withAssertions loci).renameUses rename) p ↔
      (r, p) ∈ (f.withAssertions loci).assertionPoints (f.recordsFor loci) := by
  rw [mem_assertionPoints hf found]
  obtain ⟨i, hi⟩ := List.mem_iff_getElem?.mp hr
  obtain ⟨l, block, slot, placed, rfl⟩ := getElem?_recordsFor.mp hi
  constructor
  · rintro ⟨index, subject, predicate, rfl, hstmt⟩
    rw [stmtAt?_renameUses] at hstmt
    obtain ⟨stmt, hstmt, same⟩ := Option.map_eq_some_iff.mp hstmt
    have dest : stmt.dest? = some (f.nameCount + i) := by
      rw [← stmt.dest?_rename, same]
      rfl
    obtain ⟨-, rfl⟩ := stmt_of_dest hf hstmt dest placed
    exact ⟨i, l, block, slot, index, placed, rfl, hstmt⟩
  · rintro ⟨j, l', block', slot', index, placed', same, hstmt⟩
    obtain ⟨record, rfl⟩ := Prod.mk.inj same
    obtain ⟨-, derived, rfl, -⟩ := AssertionRecord.mk.inj record
    have renamed : ((f.withAssertions loci).renameUses rename).stmtAt? block index =
        some ((Stmt.assign (f.nameCount + i) (.assert l'.name l'.predicate)).rename
          (rename ⟨block, .before index⟩)) := by
      rw [stmtAt?_renameUses, hstmt, derived]
      rfl
    exact ⟨index, _, _, rfl, renamed⟩

theorem exists_at {rename : Point → NameId → NameId} {r : AssertionRecord}
    (hr : r ∈ f.recordsFor loci) : ∃ p, r.At ((f.withAssertions loci).renameUses rename) p := by
  obtain ⟨i, hi⟩ := List.mem_iff_getElem?.mp hr
  obtain ⟨l, block, slot, placed, rfl⟩ := getElem?_recordsFor.mp hi
  obtain ⟨block', index, hstmt⟩ := exists_assertion found placed
  obtain ⟨rfl, -⟩ := stmt_of_dest hf hstmt rfl placed
  refine ⟨⟨block, .before index⟩, (at_iff hf found hr).mpr ?_⟩
  exact (mem_assertionPoints hf found).mpr ⟨i, l, block, slot, index, placed, rfl, hstmt⟩

/-- At a point that can be reached, the nearest assertion is read. -/
theorem readsNearest_nameAt {rename : Point → NameId → NameId} {point : Point}
    (reached : ((f.withAssertions loci).renameUses rename).Reachable point.block) (n : NameId) :
    ReadsNearest ((f.withAssertions loci).renameUses rename) (f.recordsFor loci) point n
      (nameAt (f.withAssertions loci).dominators
        ((f.withAssertions loci).assertionPoints (f.recordsFor loci)) point n) := by
  have valid := withAssertions_valid hf found
  have reachable : ∀ {t}, ((f.withAssertions loci).renameUses rename).Reachable t →
      (f.withAssertions loci).Reachable t := fun ⟨passed, way⟩ =>
    ⟨passed, path_of_outline outline_renameUses way⟩
  -- the dominators computed before the uses are renamed are those of the paths afterwards
  have above : ∀ {a b : Point}, a.strictlyDominates (f.withAssertions loci).dominators b = true →
      a.Precedes ((f.withAssertions loci).renameUses rename) b := fun h =>
    (valid.strictlyDominates_point h).of_outline outline_renameUses.symm
  have dominates : ∀ {a : Point}, a.Precedes ((f.withAssertions loci).renameUses rename) point →
      a.strictlyDominates (f.withAssertions loci).dominators point = true := fun h =>
    valid.strictlyDominates_of_precedes (reachable reached) (h.of_outline outline_renameUses)
  by_cases follows : ∃ r ∈ f.recordsFor loci, ∃ p, r.subject = n ∧
      r.At ((f.withAssertions loci).renameUses rename) p ∧
        p.Precedes ((f.withAssertions loci).renameUses rename) point
  · obtain ⟨r, hr, p, subject, stands, before⟩ := follows
    obtain ⟨⟨best, q⟩, hbest, about, first, named, nearest⟩ := nameAt_nearest
      (fun x hx y hy => assertionPoints_distinct hf found hx hy) ((at_iff hf found hr).mp stands)
      subject (dominates before)
    have record := mem_recordsFor_of_mem_assertionPoints hbest
    refine .inr ⟨best, record, q, about, (at_iff hf found record).mpr hbest, above first, named, ?_⟩
    intro r' hr' p' subject' stands' before'
    rcases nearest (r', p') ((at_iff hf found hr').mp stands') subject' (dominates before') with
      same | other
    · exact .inl (congrArg Prod.fst same)
    · exact .inr (above other)
  · left
    refine ⟨?_, fun r hr p subject stands before => follows ⟨r, hr, p, subject, stands, before⟩⟩
    rcases @nameAt_cases (f.withAssertions loci).dominators
        ((f.withAssertions loci).assertionPoints (f.recordsFor loci)) point n with
      kept | ⟨⟨r, p⟩, hx, subject, first, -⟩
    · exact kept
    · have record := mem_recordsFor_of_mem_assertionPoints hx
      exact absurd ⟨r, record, p, subject, (at_iff hf found record).mpr hx, above first⟩ follows

omit hf in
/-- Every fact has its assertion, in the order in which the facts were found. -/
theorem record_of_getElem? {i : Nat} {l : AssertLocus} {r : AssertionRecord}
    (hl : loci[i]? = some l) (hr : (f.recordsFor loci)[i]? = some r) :
    r.subject = l.name ∧ r.predicate = l.predicate ∧ r.derived = f.nameCount + i ∧
      ∃ slot, f.PlacedAt (f.edgesToSplit loci) l.locus r.block slot := by
  obtain ⟨l', block, slot, placed, rfl⟩ := getElem?_recordsFor.mp hr
  have here := getElem?_placements found i
  rw [placed, hl] at here
  obtain ⟨place, hplace, same⟩ := Option.map_eq_some_iff.mp here.symm
  cases same
  exact ⟨rfl, rfl, rfl, slot, placedAt_of_placeOf? hplace⟩

/-- The assertion of a fact on an edge stands where control comes only by the edge. The entry block
    with a single edge to it is left out. -/
theorem onEdge_of_placedAt {rename : Point → NameId → NameId} {r : AssertionRecord} {id : EdgeId}
    {e : Edge} {slot : Slot} (he : f.edge? id = some e)
    (placed : f.PlacedAt (f.edgesToSplit loci) (.edge id) r.block slot)
    (inner : e.dst ≠ f.entry ∨ (f.predEdges f.entry).length ≠ 1) :
    r.OnEdge f ((f.withAssertions loci).renameUses rename) e := by
  generalize hblock : r.block = block at placed
  cases placed with
  | @split _ e' i he' hi =>
      rw [he] at he'
      cases he'
      constructor
      · refine .inr ⟨hblock ▸ Nat.le_add_right _ _, ?_⟩
        rw [hblock, block?_renameUses, block?_withAssertions_new, hi]
        exact ⟨_, rfl, rfl⟩
      · rw [hblock]
        exact enteredFrom_split hf found outline_asserted hi
  | @head _ e' he' single =>
      rw [he] at he'
      cases he'
      have other : e.dst ≠ f.entry := by
        rintro start
        rcases inner with away | several
        · exact away start
        · exact several (start ▸ single)
      refine ⟨.inl hblock, ?_⟩
      rw [hblock]
      exact enteredFrom_head hf found outline_asserted he single other

end Asserted

end Function

/-- Inserting assertions keeps single assignment form. The result passes validation. If the entry
    block is not entered by exactly one edge, every use is dominated by its definition. Every fact
    has its assertion, and the assertion of a fact on an edge stands where control comes only by the
    edge, except on the only edge to the entry block. Every use reads the nearest assertion about its
    name that precedes it. -/
theorem insertAssertions_singleAssignment {f : Function} {config : Config}
    (valid : f.validate = .ok ()) (uses : f.UsesDominated) :
    let loci := f.findAssertions config
    let g := (f.insertAssertions config).1
    let records := (f.insertAssertions config).2
    g.validate = .ok () ∧
    ((f.predEdges f.entry).length ≠ 1 → g.UsesDominated) ∧
    records.length = loci.length ∧
    (∀ (i : Nat) l r, loci[i]? = some l → records[i]? = some r →
      r.subject = l.name ∧ r.predicate = l.predicate ∧ (∃ p, r.At g p) ∧
      ∀ id e, l.locus = .edge id → f.edge? id = some e →
        e.dst ≠ f.entry ∨ (f.predEdges f.entry).length ≠ 1 → r.OnEdge f g e) ∧
    ∃ rename, g = (f.withAssertions loci).renameUses rename ∧
      ∀ point n, g.Reachable point.block → ReadsNearest g records point n (rename point n) := by
  have hf := Function.valid_of_validate valid
  have found : ∀ l ∈ f.findAssertions config, f.Registered (fun _ _ n => n < f.nameCount) l :=
    fun l hl => hf.readsHave_lt.registered hl
  have dominated : ∀ l ∈ f.findAssertions config,
      f.Registered (fun block index n => f.Dominated n block index) l :=
    fun l hl => uses.readsHave.registered hl
  have checked : (f.materialize (f.findAssertions config)).1.validate = .ok () :=
    (Function.valid_materialize hf found).validate_eq_ok fun m read =>
      Function.defined_materialize hf found (Function.reads_defined hf uses dominated) read
  have set : (f.predEdges f.entry).length ≠ 1 →
      (f.materialize (f.findAssertions config)).1.UsesDominated := fun entered =>
    Function.usesDominated_materialize hf found
      (Function.reads_dominated hf uses dominated found entered)
  rw [Function.insertAssertions_eq]
  dsimp only
  rw [Function.materialize_eq found hf] at checked set ⊢
  refine ⟨checked, set, ?_, ?_, _, rfl, ?_⟩
  · rw [Function.length_recordsFor, Function.length_placements found]
  · intro i l r hl hr
    obtain ⟨subject, predicate, derived, slot, placed⟩ := Function.record_of_getElem? found hl hr
    refine ⟨subject, predicate, ?_, fun id e locus he inner => ?_⟩
    · exact Function.exists_at hf found (List.mem_of_getElem? hr)
    · rw [locus] at placed
      exact Function.onEdge_of_placedAt hf found he placed inner
  · intro point n reached
    exact Function.readsNearest_nameAt hf found reached n

/-- Tests whether a number lies between two constants. The second test follows the assertion of the
    first one, and the edges of both failures get blocks of their own. -/
def betweenTest : Function where
  name := "between"
  names := [⟨.int ⟨8, eight_bits⟩ .signed, .param 0 false⟩]
  blocks :=
    [ .ofTerminator (.branch ⟨.lt, .name 0, .const 10⟩ 1 3),
      .ofTerminator (.branch ⟨.gt, .name 0, .const 2⟩ 2 3),
      .ofTerminator (.return (some (.name 0))),
      .ofTerminator (.return (some (.name 0))) ]

theorem betweenTest_usesDominated : betweenTest.UsesDominated :=
  Function.usesDominated_of_above [[], [0], [0, 1], [0]] (by decide) (by decide)

theorem betweenTest_dominators :
    betweenTest.dominators = ⟨0, #[some [], some [0], some [1, 0], some [0]]⟩ := by
  have without : DominatorTree.reachedWithout betweenTest.graph 0 =
      #[#[false, false, false, false], #[true, false, false, true], #[true, true, false, true],
        #[true, true, true, false]] := by
    cbv
  have reached : Graph.mark betweenTest.graph.size (betweenTest.graph.postorder 0) =
      #[true, true, true, true] := by
    cbv
  rw [Function.dominators, Function.entry,
    DominatorTree.ofGraph_of_stages #[[], [0], [0, 1], [0]] without rfl reached]
  cbv

/-- Four assertions are inserted, and all uses are dominated. -/
theorem insertAssertions_singleAssignment_betweenTest :
    let inserted := betweenTest.insertAssertions {}
    inserted.1.validate = .ok () ∧ inserted.1.UsesDominated ∧ inserted.2.length = 4 := by
  have kept := @insertAssertions_singleAssignment betweenTest {} rfl betweenTest_usesDominated
  refine ⟨kept.1, kept.2.1 (by decide), kept.2.2.1.trans ?_⟩
  have found : (betweenTest.findAssertions {}).length = 4 := by
    simp only [Function.findAssertions, betweenTest_dominators]
    cbv
  exact found

/-- Compares a number with its square, and starts again while it is smaller. The entry has one edge
    to it. -/
def restartWhileSmaller : Function where
  name := "restart"
  names :=
    [ ⟨.int ⟨8, eight_bits⟩ .signed, .param 0 false⟩,
      ⟨.int ⟨8, eight_bits⟩ .signed, .defined⟩ ]
  blocks :=
    [ .ofTerminator (.jump 1),
      ⟨[], [.assign 1 (.binary .mul (.name 0) (.name 0))],
        .branch ⟨.lt, .name 0, .name 1⟩ 0 2, [], false⟩,
      .ofTerminator (.return (some (.name 0))) ]

theorem restartWhileSmaller_usesDominated : restartWhileSmaller.UsesDominated :=
  Function.usesDominated_of_above [[], [0], [0, 1]] (by decide) (by decide)

theorem restartWhileSmaller_dominators :
    restartWhileSmaller.dominators = ⟨0, #[some [], some [0], some [1, 0]]⟩ := by
  have without : DominatorTree.reachedWithout restartWhileSmaller.graph 0 =
      #[#[false, false, false], #[true, false, false], #[true, true, false]] := by
    cbv
  have reached : Graph.mark restartWhileSmaller.graph.size
      (restartWhileSmaller.graph.postorder 0) = #[true, true, true] := by
    cbv
  rw [Function.dominators, Function.entry,
    DominatorTree.ofGraph_of_stages #[[], [0], [0, 1]] without rfl reached]
  cbv

/-- The assertion on the edge back to the entry is placed in the entry itself. The function starts
    there, without the edge, and the limit of the assertion is not set yet. -/
theorem insertAssertions_restartWhileSmaller :
    let inserted := restartWhileSmaller.insertAssertions {}
    restartWhileSmaller.validate = .ok () ∧ restartWhileSmaller.UsesDominated ∧
    ¬ inserted.1.UsesDominated ∧
    ∃ l r e, (restartWhileSmaller.findAssertions {})[0]? = some l ∧ inserted.2[0]? = some r ∧
      l.locus = .edge 1 ∧ restartWhileSmaller.edge? 1 = some e ∧
      ¬ r.OnEdge restartWhileSmaller inserted.1 e := by
  have found : restartWhileSmaller.findAssertions {} =
      [⟨0, .compare .lt (.name 1), .edge 1⟩, ⟨0, .compare .ge (.name 1), .edge 2⟩] := by
    simp only [Function.findAssertions, restartWhileSmaller_dominators]
    cbv
  have inserted : restartWhileSmaller.insertAssertions {} =
      ({ restartWhileSmaller with
        names := restartWhileSmaller.names ++
          .replicate 2 ⟨.int ⟨8, eight_bits⟩ .signed, .defined⟩
        blocks :=
          [ ⟨[], [.assign 2 (.assert 0 (.compare .lt (.name 1)))], .jump 1, [], false⟩,
            ⟨[], [.assign 1 (.binary .mul (.name 2) (.name 2))],
              .branch ⟨.lt, .name 2, .name 1⟩ 0 2, [], false⟩,
            ⟨[], [.assign 3 (.assert 2 (.compare .ge (.name 1)))],
              .return (some (.name 3)), [], false⟩ ] },
        [⟨0, 2, 0, .compare .lt (.name 1)⟩, ⟨0, 3, 2, .compare .ge (.name 1)⟩]) := by
    rw [Function.insertAssertions_of_stages rfl found restartWhileSmaller_dominators]
    rfl
  rw [found, inserted]
  refine ⟨rfl, restartWhileSmaller_usesDominated, fun uses => ?_, ?_⟩
  · obtain ⟨site, same, dominates⟩ := uses.stmt 0 0 _ 1 rfl (by decide)
    cases same
    rcases dominates 1 1 rfl [] .entry with ⟨here, -⟩ | passed
    · cases here
    · cases passed
  · refine ⟨_, _, ⟨1, 0, { onTrue := true }⟩, rfl, rfl, rfl, by decide, fun onEdge => ?_⟩
    obtain ⟨before, passed, -⟩ := onEdge.entered [] .entry
    cases passed

end RangeFlow
