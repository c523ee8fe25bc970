import RangeFlow.Proofs.Valid

/-! # Places of definitions and uses

The tables of a function list definitions and uses with their places. Here these places are read
back: a place in a table is a merge, statement or terminator of the function, and in a valid
function a name is defined in one place only.
-/

namespace RangeFlow.Function

/-- The merge at a place. -/
def phiAt? (f : Function) (block : BlockId) (index : Nat) : Option Phi :=
  (f.block? block).bind (·.phis[index]?)

/-- The statement at a place. -/
def stmtAt? (f : Function) (block : BlockId) (index : Nat) : Option Stmt :=
  (f.block? block).bind (·.stmts[index]?)

theorem phiAt?_eq_some {f : Function} {block : BlockId} {index : Nat} {phi : Phi} :
    f.phiAt? block index = some phi ↔
      ∃ b, f.block? block = some b ∧ b.phis[index]? = some phi := by
  simp [phiAt?, Option.bind_eq_some_iff]

theorem stmtAt?_eq_some {f : Function} {block : BlockId} {index : Nat} {stmt : Stmt} :
    f.stmtAt? block index = some stmt ↔
      ∃ b, f.block? block = some b ∧ b.stmts[index]? = some stmt := by
  simp [stmtAt?, Option.bind_eq_some_iff]

/-- The definitions in blocks, with their places. -/
def innerDefs (f : Function) : List (NameId × DefSite) :=
  f.blocks.zipIdx.flatMap fun (block, id) => block.defSites id

theorem mem_innerDefs {f : Function} {n : NameId} {site : DefSite} :
    (n, site) ∈ f.innerDefs ↔ ∃ id b, f.block? id = some b ∧ (n, site) ∈ b.defSites id := by
  simp only [innerDefs, List.mem_flatMap, Prod.exists]
  constructor
  · rintro ⟨b, id, hb, h⟩
    exact ⟨id, b, block?_of_mem_zipIdx hb, h⟩
  · rintro ⟨id, b, hb, h⟩
    exact ⟨b, id, mem_zipIdx_of_block? hb, h⟩

/-- A name is listed with a merge exactly if the merge defines it. -/
theorem mem_innerDefs_phi {f : Function} {n : NameId} {block : BlockId} {index : Nat} :
    (n, .phi block index) ∈ f.innerDefs ↔
      ∃ phi, f.phiAt? block index = some phi ∧ phi.dest = n := by
  rw [mem_innerDefs]
  constructor
  · rintro ⟨id, b, hb, h⟩
    simp only [Block.defSites, List.mem_append, List.mem_map, List.mem_filterMap, Prod.exists,
      Option.map_eq_some_iff, Prod.mk.injEq, reduceCtorEq, and_false, exists_false, or_false] at h
    obtain ⟨phi, i, hphi, hdest, hsite⟩ := h
    cases hsite
    exact ⟨phi, phiAt?_eq_some.mpr ⟨b, hb, by simpa using List.mem_zipIdx_iff_getElem?.mp hphi⟩,
      hdest⟩
  · rintro ⟨phi, hphi, rfl⟩
    obtain ⟨b, hb, hi⟩ := phiAt?_eq_some.mp hphi
    refine ⟨block, b, hb, List.mem_append_left _ (List.mem_map.mpr ⟨(phi, index), ?_, rfl⟩)⟩
    exact List.mem_zipIdx_iff_getElem?.mpr hi

/-- A name is listed with a statement exactly if the statement defines it. -/
theorem mem_innerDefs_stmt {f : Function} {n : NameId} {block : BlockId} {index : Nat} :
    (n, .stmt block index) ∈ f.innerDefs ↔
      ∃ stmt, f.stmtAt? block index = some stmt ∧ stmt.dest? = some n := by
  rw [mem_innerDefs]
  constructor
  · rintro ⟨id, b, hb, h⟩
    simp only [Block.defSites, List.mem_append, List.mem_map, List.mem_filterMap, Prod.exists,
      Option.map_eq_some_iff, Prod.mk.injEq, reduceCtorEq, and_false, exists_false,
      false_or] at h
    obtain ⟨stmt, i, hstmt, m, hdest, rfl, hsite⟩ := h
    cases hsite
    exact ⟨stmt, stmtAt?_eq_some.mpr ⟨b, hb, by simpa using List.mem_zipIdx_iff_getElem?.mp hstmt⟩,
      hdest⟩
  · rintro ⟨stmt, hstmt, hdest⟩
    obtain ⟨b, hb, hi⟩ := stmtAt?_eq_some.mp hstmt
    refine ⟨block, b, hb, List.mem_append_right _ (List.mem_filterMap.mpr ⟨(stmt, index), ?_, ?_⟩)⟩
    · exact List.mem_zipIdx_iff_getElem?.mpr hi
    · simp [hdest]

/-- The names listed with their places in a block are the names it defines. -/
theorem map_fst_defSites (b : Block) (id : BlockId) : (b.defSites id).map Prod.fst = b.defs := by
  have phis : (b.phis.zipIdx.map fun p => (p.1.dest, DefSite.phi id p.2)).map Prod.fst =
      b.phis.map Phi.dest := by
    rw [List.map_map]
    calc b.phis.zipIdx.map (Prod.fst ∘ fun p => (p.1.dest, DefSite.phi id p.2))
        = (b.phis.zipIdx.map Prod.fst).map Phi.dest := by rw [List.map_map]; rfl
      _ = b.phis.map Phi.dest := by rw [List.zipIdx_map_fst]
  have stmts : (b.stmts.zipIdx.filterMap fun p =>
      p.1.dest?.map (·, DefSite.stmt id p.2)).map Prod.fst = b.stmts.filterMap Stmt.dest? := by
    rw [List.map_filterMap]
    calc b.stmts.zipIdx.filterMap
          (fun p => (p.1.dest?.map (·, DefSite.stmt id p.2)).map Prod.fst)
        = b.stmts.zipIdx.filterMap (fun p => p.1.dest?) := by
          congr 1
          funext p
          cases p.1.dest? <;> rfl
      _ = (b.stmts.zipIdx.map Prod.fst).filterMap Stmt.dest? := by rw [List.filterMap_map]; rfl
      _ = b.stmts.filterMap Stmt.dest? := by rw [List.zipIdx_map_fst]
  rw [Block.defSites, Block.defs, List.map_append, phis, stmts]

/-- The names listed with their places are the names defined in blocks. -/
theorem map_fst_innerDefs (f : Function) :
    f.innerDefs.map Prod.fst = f.blocks.flatMap Block.defs := by
  calc f.innerDefs.map Prod.fst
      = f.blocks.zipIdx.flatMap fun p => (p.1.defSites p.2).map Prod.fst := by
        rw [innerDefs, List.map_flatMap]
    _ = f.blocks.zipIdx.flatMap fun p => p.1.defs := by
        congr 1
        funext p
        exact map_fst_defSites p.1 p.2
    _ = (f.blocks.zipIdx.map Prod.fst).flatMap Block.defs := by rw [List.flatMap_map]
    _ = f.blocks.flatMap Block.defs := by rw [List.zipIdx_map_fst]

/-- In a valid function a name is defined in one place. -/
theorem Valid.defSite_unique {f : Function} (hf : f.Valid) {n : NameId} {a b : DefSite}
    (ha : (n, a) ∈ f.innerDefs) (hb : (n, b) ∈ f.innerDefs) : a = b := by
  have nodup : (f.innerDefs.map Prod.fst).Nodup := by
    rw [map_fst_innerDefs]
    exact hf.defsNodup
  exact eq_of_nodup_fst nodup ha hb

/-- In a valid function a defined name exists. -/
theorem Valid.def_lt {f : Function} (hf : f.Valid) {n : NameId} {site : DefSite}
    (h : (n, site) ∈ f.innerDefs) : n < f.nameCount := by
  have member : n ∈ f.innerDefs.map Prod.fst := List.mem_map_of_mem h
  rw [map_fst_innerDefs] at member
  exact hf.defsExist n member

/-- In a valid function a statement defines a name that exists. -/
theorem Valid.dest_lt {f : Function} (hf : f.Valid) {block : BlockId} {index : Nat}
    {dest : NameId} {rhs : Rhs} (h : f.stmtAt? block index = some (.assign dest rhs)) :
    dest < f.nameCount :=
  hf.def_lt (mem_innerDefs_stmt.mpr ⟨_, h, rfl⟩)

/-- In a valid function a merge defines a name that exists. -/
theorem Valid.phi_dest_lt {f : Function} (hf : f.Valid) {block : BlockId} {index : Nat}
    {phi : Phi} (h : f.phiAt? block index = some phi) : phi.dest < f.nameCount :=
  hf.def_lt (mem_innerDefs_phi.mpr ⟨_, h, rfl⟩)

theorem mem_of_defSite? {f : Function} {n : NameId} {site : DefSite}
    (h : f.defSite? n = some site) : (n, site) ∈ f.defSites := by
  unfold defSite? at h
  split at h
  · obtain ⟨entry, hentry, rfl⟩ := Option.map_eq_some_iff.mp h
    have member := List.mem_filter.mp (List.mem_of_getLast? hentry)
    rw [← eq_of_beq member.2]
    exact member.1
  · cases h

/-- The definitions are those before the entry block and those in blocks. -/
theorem mem_defSites {f : Function} {n : NameId} {site : DefSite} :
    (n, site) ∈ f.defSites ↔
      (site = .default ∧ n ∈ f.defaultNames) ∨ (n, site) ∈ f.innerDefs := by
  rw [defSites, List.mem_append, mem_defaultNames]
  refine or_congr ?_ Iff.rfl
  simp only [List.mem_filterMap, Prod.exists, List.mem_zipIdx_iff_getElem?,
    Option.ite_none_right_eq_some, Option.some.injEq, Prod.mk.injEq]
  constructor
  · rintro ⟨info, m, found, isDefault, rfl, rfl⟩
    exact ⟨rfl, info, found, isDefault⟩
  · rintro ⟨rfl, info, found, isDefault⟩
    exact ⟨info, n, found, isDefault, rfl, rfl⟩

/-- A definition that is found in a block is one of the block's definitions. -/
theorem mem_innerDefs_of_defSite? {f : Function} {n : NameId} {site : DefSite}
    (h : f.defSite? n = some site) : site = .default ∨ (n, site) ∈ f.innerDefs :=
  (mem_defSites.mp (mem_of_defSite? h)).imp_left And.left

/-- In a valid function a definition that is listed is the one that is found. -/
theorem Valid.defSite?_of_mem {f : Function} (hf : f.Valid) {n : NameId} {site : DefSite}
    (h : (n, site) ∈ f.defSites) : f.defSite? n = some site := by
  have new : ∀ site', (n, site') ∈ f.innerDefs → n ∉ f.defaultNames := by
    intro site' inner
    apply hf.defsNew
    rw [← map_fst_innerDefs]
    exact List.mem_map_of_mem inner
  have unique : ∀ site', (n, site') ∈ f.defSites → site' = site := by
    intro site' h'
    rcases mem_defSites.mp h with ⟨rfl, before⟩ | inner
    · rcases mem_defSites.mp h' with ⟨rfl, -⟩ | inner'
      · rfl
      · exact absurd before (new site' inner')
    · rcases mem_defSites.mp h' with ⟨rfl, before⟩ | inner'
      · exact absurd before (new site inner)
      · exact hf.defSite_unique inner' inner
  have bound : n < f.nameCount := by
    rcases mem_defSites.mp h with ⟨-, before⟩ | inner
    · exact lt_of_mem_defaultNames before
    · exact hf.def_lt inner
  have listed : (n, site) ∈ f.defSites.filter (·.1 == n) :=
    List.mem_filter.mpr ⟨h, beq_self_eq_true n⟩
  have last := List.getLast?_eq_some_getLast (List.ne_nil_of_mem listed)
  have found : f.defSite? n = some (List.getLast _ (List.ne_nil_of_mem listed)).2 := by
    rw [defSite?, if_pos bound, last, Option.map_some]
  rw [found, unique _ (mem_of_defSite? found)]

/-- In a valid function the definition in a block is the one that is found. -/
theorem Valid.defSite?_eq {f : Function} (hf : f.Valid) {n : NameId} {site : DefSite}
    (h : (n, site) ∈ f.innerDefs) : f.defSite? n = some site :=
  hf.defSite?_of_mem (mem_defSites.mpr (.inr h))

/-- The place where a statement assigns a name is the place of its definition. -/
theorem Valid.defSite?_stmt {f : Function} (hf : f.Valid) {block : BlockId} {index : Nat}
    {stmt : Stmt} {n : NameId} (h : f.stmtAt? block index = some stmt)
    (hn : stmt.dest? = some n) : f.defSite? n = some (.stmt block index) :=
  hf.defSite?_eq (mem_innerDefs_stmt.mpr ⟨stmt, h, hn⟩)

theorem Valid.defSite?_phi {f : Function} (hf : f.Valid) {block : BlockId} {index : Nat}
    {phi : Phi} (h : f.phiAt? block index = some phi) :
    f.defSite? phi.dest = some (.phi block index) :=
  hf.defSite?_eq (mem_innerDefs_phi.mpr ⟨phi, h, rfl⟩)

/-- A right-hand side that is found stands in the statement that assigns the name. -/
theorem stmtAt?_of_defRhs? {f : Function} {n : NameId} {rhs : Rhs} (h : f.defRhs? n = some rhs) :
    ∃ block index, f.defSite? n = some (.stmt block index) ∧
      f.stmtAt? block index = some (.assign n rhs) := by
  obtain ⟨stmt, hstmt, hrhs⟩ := Option.bind_eq_some_iff.mp h
  unfold defStmt? at hstmt
  split at hstmt
  · next block index hsite =>
      refine ⟨block, index, hsite, ?_⟩
      rcases mem_innerDefs_of_defSite? hsite with other | inner
      · cases other
      · obtain ⟨stmt', hstmt', hdest⟩ := mem_innerDefs_stmt.mp inner
        have same : stmt' = stmt := Option.some.inj (hstmt'.symm.trans hstmt)
        subst same
        cases stmt' with
        | assign dest rhs' =>
            cases hdest
            cases hrhs
            exact hstmt'
        | store address value => cases hrhs
        | nop => cases hrhs
  · cases hstmt

/-- The place of a use is listed among all uses. -/
theorem mem_uses {f : Function} {n : NameId} {site : UseSite} (hn : n < f.nameCount) :
    site ∈ f.uses n ↔ ∃ id b, f.block? id = some b ∧ (n, site) ∈ b.useSites id := by
  simp only [uses, hn, if_true, useSites, List.mem_map, List.mem_filter, List.mem_flatMap,
    Prod.exists, beq_iff_eq]
  constructor
  · rintro ⟨m, s, ⟨⟨b, id, hb, h⟩, rfl⟩, rfl⟩
    exact ⟨id, b, block?_of_mem_zipIdx hb, h⟩
  · rintro ⟨id, b, hb, h⟩
    exact ⟨n, site, ⟨⟨b, id, mem_zipIdx_of_block? hb, h⟩, rfl⟩, rfl⟩

/-- A statement is listed among the uses of the names it reads. -/
theorem stmt_mem_uses {f : Function} {block : BlockId} {index : Nat} {stmt : Stmt} {n : NameId}
    (h : f.stmtAt? block index = some stmt) (hn : n < f.nameCount) (hu : n ∈ stmt.usedNames) :
    .stmt block index ∈ f.uses n := by
  obtain ⟨b, hb, hi⟩ := stmtAt?_eq_some.mp h
  refine (mem_uses hn).mpr ⟨block, b, hb, ?_⟩
  refine List.mem_append_left _ (List.mem_append_right _ ?_)
  refine List.mem_flatMap.mpr ⟨(stmt, index), List.mem_zipIdx_iff_getElem?.mpr hi, ?_⟩
  exact List.mem_map.mpr ⟨n, hu, rfl⟩

/-- A merge is listed among the uses of its operands. -/
theorem phi_mem_uses {f : Function} {block : BlockId} {index : Nat} {phi : Phi} {n : NameId}
    {o : PhiOperand} (h : f.phiAt? block index = some phi) (hn : n < f.nameCount)
    (ho : o ∈ phi.operands) (hu : o.value = .name n) :
    .phi block index o.predecessor ∈ f.uses n := by
  obtain ⟨b, hb, hi⟩ := phiAt?_eq_some.mp h
  refine (mem_uses hn).mpr ⟨block, b, hb, ?_⟩
  refine List.mem_append_left _ (List.mem_append_left _ ?_)
  refine List.mem_flatMap.mpr ⟨(phi, index), List.mem_zipIdx_iff_getElem?.mpr hi, ?_⟩
  exact List.mem_filterMap.mpr ⟨o, ho, by simp [hu, Operand.name?]⟩

/-- A terminator is listed among the uses of the names it reads. -/
theorem terminator_mem_uses {f : Function} {block : BlockId} {b : Block} {n : NameId}
    (h : f.block? block = some b) (hn : n < f.nameCount) (hu : n ∈ b.terminator.usedNames) :
    .terminator block ∈ f.uses n := by
  refine (mem_uses hn).mpr ⟨block, b, h, List.mem_append_right _ ?_⟩
  exact List.mem_map.mpr ⟨n, hu, rfl⟩

end RangeFlow.Function
