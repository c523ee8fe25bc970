import RangeFlow.Assertion.Strip
import RangeFlow.Proofs.Nearest

/-! # Removing assertions undoes inserting them

Every assertion is about the name it was inserted for, or about the result of an assertion that
dominates it. So a chain of assertions is shorter than their number and ends at the original name,
and taking them out gives the function with only its edges split. Following the blocks on edges to
where they lead, and back to where they are entered from, gives the original function.
-/

namespace RangeFlow

/-- A chain along which a number decreases ends where it has to stop. -/
theorem chainEnd_eq {next : NameId → Option NameId} {target : NameId} {inv : Nat → NameId → Prop}
    (step : ∀ k m, inv k m → (next m = none ∧ m = target) ∨
      ∃ k' m', k' < k ∧ next m = some m' ∧ inv k' m')
    {k fuel : Nat} {m : NameId} (h : inv k m) (enough : k ≤ fuel) : chainEnd next fuel m = target := by
  induction fuel generalizing k m with
  | zero =>
      rcases step k m h with ⟨-, rfl⟩ | ⟨k', m', less, -⟩
      · rfl
      · omega
  | succ fuel ih =>
      rcases step k m h with ⟨stops, rfl⟩ | ⟨k', m', less, goes, h'⟩
      · simp [chainEnd, chain, stops]
      · have rest := ih h' (by omega)
        rw [chainEnd, chain, goes]
        rw [chainEnd] at rest
        simp only [List.getLast?_cons]
        simpa using rest

theorem countP_lt_countP {α : Type} {p q : α → Bool} {l : List α}
    (weaker : ∀ x ∈ l, p x = true → q x = true) {a : α} (ha : a ∈ l) (hq : q a = true)
    (hp : p a = false) : l.countP p < l.countP q := by
  have split := List.append_of_mem ha
  obtain ⟨before, after, rfl⟩ := split
  simp only [List.countP_append, List.countP_cons, hp, hq]
  have first := List.countP_mono_left (l := before) fun x hx => weaker x (by simp [hx])
  have second := List.countP_mono_left (l := after) fun x hx => weaker x (by simp [hx])
  simp only [Bool.false_eq_true, if_false, if_true]
  omega

/-- The name is read in the block. -/
def Block.Reads (b : Block) (n : NameId) : Prop :=
  (∃ phi ∈ b.phis, ∃ o ∈ phi.operands, o.value.name? = some n) ∨
    (∃ s ∈ b.stmts, n ∈ s.usedNames) ∨ n ∈ b.terminator.usedNames

theorem Block.reads_of_redirect {b : Block} {forth back : BlockId → BlockId} {n : NameId}
    (h : (b.redirect forth back).Reads n) : b.Reads n := by
  rcases h with ⟨phi, hphi, o, ho, hn⟩ | stmt | terminator
  · obtain ⟨phi₀, hphi₀, rfl⟩ := List.mem_map.mp hphi
    obtain ⟨o₀, ho₀, rfl⟩ := List.mem_map.mp ho
    exact .inl ⟨phi₀, hphi₀, o₀, ho₀, hn⟩
  · exact .inr (.inl stmt)
  · refine .inr (.inr ?_)
    simpa [Terminator.usedNames, Block.redirect] using terminator

namespace Function

/-- The names that blocks of a valid function read exist. -/
theorem Valid.reads_lt {f : Function} (hf : f.Valid) {id : BlockId} {b : Block} {n : NameId}
    (hb : f.block? id = some b) (h : b.Reads n) : n < f.nameCount := by
  rcases h with ⟨phi, hphi, o, ho, hn⟩ | ⟨s, hs, hn⟩ | hn
  · obtain ⟨i, hi⟩ := List.mem_iff_getElem?.mp hphi
    have typed := hf.phi_typed (phiAt?_eq_some.mpr ⟨b, hb, hi⟩) ho
    cases value : o.value with
    | const c =>
        rw [value] at hn
        cases hn
    | name m =>
        rw [value] at hn typed
        cases hn
        exact typed.lt
  · obtain ⟨i, hi⟩ := List.mem_iff_getElem?.mp hs
    exact hf.stmt_usedNames_lt (stmtAt?_eq_some.mpr ⟨b, hb, hi⟩) hn
  · exact hf.terminator_usedNames_lt hb hn

section Blocks

variable {b : Block} {root : NameId → NameId}

theorem stripBlock_eq (b : Block) : stripBlock root b =
    { b with
      phis := b.phis.map (Phi.rename fun _ => root)
      stmts := (b.stmts.filter fun s => !s.isAssert).map (Stmt.rename root)
      terminator := b.terminator.rename root } := rfl

theorem filter_insertStmts {insertions : List Insertion} {id : BlockId} {stmts : List Stmt}
    (asserts : ∀ x ∈ insertions, x.stmt.isAssert = true)
    (plain : ∀ s ∈ stmts, s.isAssert = false) :
    (insertStmts insertions id stmts).filter (fun s => !s.isAssert) = stmts := by
  have none : ∀ slot, (slotStmts insertions id slot).filter (fun s => !s.isAssert) = [] := by
    intro slot
    refine List.filter_eq_nil_iff.mpr fun s hs => ?_
    obtain ⟨x, hx, -, -, rfl⟩ := mem_slotStmts.mp hs
    simp [asserts x hx]
  have each : ∀ p ∈ stmts.zipIdx, (p.1 :: slotStmts insertions id (.after p.2)).filter
      (fun s => !s.isAssert) = [p.1] := by
    intro p hp
    rw [List.filter_cons_of_pos (by simp [plain p.1 (List.fst_mem_of_mem_zipIdx hp)]), none]
  rw [insertStmts_eq, List.filter_append, none, List.nil_append, spread, List.filter_flatMap,
    List.flatMap_congr each, ← List.map_eq_flatMap, List.zipIdx_map_fst]

theorem map_filter_rename {r : Nat → NameId → NameId} {stmts : List Stmt}
    (restores : ∀ s ∈ stmts, s.isAssert = false → ∀ i, ∀ n ∈ s.usedNames, root (r i n) = n) :
    ((stmts.zipIdx.map fun p => p.1.rename (r p.2)).filter fun s => !s.isAssert).map
      (Stmt.rename root) = stmts.filter fun s => !s.isAssert := by
  have kept : stmts.filter (fun s => !s.isAssert) =
      (stmts.zipIdx.filter fun p => !p.1.isAssert).map Prod.fst := by
    have map := List.filter_map (f := Prod.fst) (l := stmts.zipIdx) (p := fun s => !s.isAssert)
    rw [List.zipIdx_map_fst] at map
    exact map
  rw [kept, List.filter_map, List.map_map]
  have same : ((fun s : Stmt => !s.isAssert) ∘ fun p : Stmt × Nat => p.1.rename (r p.2)) =
      fun p => !p.1.isAssert := by
    funext p
    simp
  rw [same]
  refine List.map_congr_left fun p hp => ?_
  obtain ⟨member, unasserted⟩ := List.mem_filter.mp hp
  rw [Function.comp, Stmt.rename_rename]
  refine Stmt.rename_eq_self ?_
  exact restores p.1 (List.fst_mem_of_mem_zipIdx member) (by simpa using unasserted) p.2

/-- Taking the assertions out of a block that was renamed gives the block back, if every new name
    stands for the old one. -/
theorem stripBlock_renameBlock {insertions : List Insertion} {r : Point → NameId → NameId}
    {id : BlockId} (restores : ∀ p n, b.Reads n → root (r p n) = n)
    (asserts : ∀ x ∈ insertions, x.stmt.isAssert = true)
    (plain : ∀ s ∈ b.stmts, s.isAssert = false) :
    stripBlock root (renameBlock r id { b with stmts := insertStmts insertions id b.stmts }) = b := by
  have phis : (b.phis.map (Phi.rename fun p => r ⟨p, .blockEnd⟩)).map (Phi.rename fun _ => root) =
      b.phis := by
    rw [List.map_map]
    refine (List.map_congr_left fun phi hphi => ?_).trans (List.map_id _)
    rw [Function.comp, Phi.rename_rename]
    exact Phi.rename_eq_self fun o ho n hn => restores _ n (.inl ⟨phi, hphi, o, ho, hn⟩)
  have stmts : (((insertStmts insertions id b.stmts).zipIdx.map fun p =>
      p.1.rename (r ⟨id, .before p.2⟩)).filter fun s => !s.isAssert).map (Stmt.rename root) =
        b.stmts := by
    rw [map_filter_rename (r := fun i => r ⟨id, .before i⟩), filter_insertStmts asserts plain]
    intro s hs unasserted i n hn
    refine restores _ n (.inr (.inl ⟨s, ?_, hn⟩))
    have kept : s ∈ (insertStmts insertions id b.stmts).filter fun s => !s.isAssert :=
      List.mem_filter.mpr ⟨hs, by simp [unasserted]⟩
    rwa [filter_insertStmts asserts plain] at kept
  have terminator : (b.terminator.rename (r ⟨id, .blockEnd⟩)).rename root = b.terminator := by
    rw [Terminator.rename_rename]
    exact Terminator.rename_eq_self fun n hn => restores _ n (.inr (.inr hn))
  rw [renameBlock_eq, stripBlock_eq, phis, stmts, terminator]

theorem stripBlock_eq_self (keeps : ∀ n, b.Reads n → root n = n)
    (plain : ∀ s ∈ b.stmts, s.isAssert = false) : stripBlock root b = b := by
  have restored := @stripBlock_renameBlock b root [] (fun _ n => n) 0
    (fun _ n hn => keeps n hn) (by simp) plain
  rwa [insertStmts_nil, renameBlock_id] at restored

end Blocks

section Strip

variable {f : Function}

theorem mem_assertionSubjects {d x : NameId} : (d, x) ∈ f.assertionSubjects ↔
    ∃ block index predicate, f.stmtAt? block index = some (.assign d (.assert x predicate)) := by
  simp only [assertionSubjects, List.mem_flatMap, List.mem_filterMap]
  constructor
  · rintro ⟨b, hb, stmt, hstmt, subject⟩
    obtain ⟨block, hblock⟩ := List.mem_iff_getElem?.mp hb
    obtain ⟨index, hindex⟩ := List.mem_iff_getElem?.mp hstmt
    split at subject
    · next dest subject' predicate =>
        cases subject
        exact ⟨block, index, predicate, stmtAt?_eq_some.mpr ⟨b, hblock, hindex⟩⟩
    · cases subject
  · rintro ⟨block, index, predicate, hstmt⟩
    obtain ⟨b, hb, hi⟩ := stmtAt?_eq_some.mp hstmt
    exact ⟨b, List.mem_of_getElem? hb, _, List.mem_of_getElem? hi, rfl⟩

theorem length_assertionSubjects :
    f.assertionSubjects.length = (f.blocks.flatMap Block.stmts).countP Stmt.isAssert := by
  rw [assertionSubjects, ← List.filterMap_flatMap, List.length_filterMap_eq_countP]
  refine List.countP_congr fun s _ => ?_
  cases s with
  | assign dest rhs => cases rhs <;> simp [Stmt.isAssert]
  | store | nop => simp [Stmt.isAssert]

/-- Assertions are taken out in the same way if there are none. -/
theorem stripAssertions_eq (f : Function) : f.stripAssertions =
    ({ f with blocks := f.blocks.map (stripBlock (assertionRoot f.assertionSubjects)) },
      f.assertionSubjects.length) := by
  unfold stripAssertions
  dsimp only
  split
  · next none =>
      have empty : f.assertionSubjects = [] := List.isEmpty_iff.mp none
      have root : assertionRoot f.assertionSubjects = fun n => n := by
        rw [empty]
        rfl
      have plain : ∀ b ∈ f.blocks, ∀ s ∈ b.stmts, s.isAssert = false := by
        have count := length_assertionSubjects (f := f)
        rw [empty, List.length_nil, eq_comm, List.countP_eq_zero] at count
        intro b hb s hs
        simpa using count s (List.mem_flatMap.mpr ⟨b, hb, hs⟩)
      have blocks : f.blocks.map (stripBlock (assertionRoot f.assertionSubjects)) = f.blocks := by
        refine (List.map_congr_left fun b hb => ?_).trans (List.map_id _)
        exact stripBlock_eq_self (by simp [root]) (plain b hb)
      rw [blocks, empty]
      rfl
  · rfl

end Strip

section Chains

variable (t : DominatorTree) (points : List (AssertionRecord × Point))

/-- The number of assertions that strictly dominate a point. -/
def assertionsAbove (p : Point) : Nat :=
  points.countP fun x => x.2.strictlyDominates t p

/-- A chain of assertions about a name is at the name, or at one of the assertions. The number bounds
    how many assertions are left. -/
inductive ChainAt (n : NameId) : Nat → NameId → Prop
  | root : ChainAt n 0 n
  | assertion {x : AssertionRecord × Point} (member : x ∈ points) (about : x.1.subject = n) :
      ChainAt n (assertionsAbove t points x.2 + 1) x.1.derived

end Chains

/-- What a name is read as at a point starts a chain of assertions above the point. -/
theorem exists_chainAt_nameAt {g : Graph} {entry : Nat} {points : List (AssertionRecord × Point)}
    {p : Point} {n : NameId} : ∃ k ≤ assertionsAbove (.ofGraph g entry) points p,
      ChainAt (.ofGraph g entry) points n k (nameAt (.ofGraph g entry) points p n) := by
  rcases @nameAt_cases (.ofGraph g entry) points p n with itself | ⟨x, hx, about, above, read⟩
  · rw [itself]
    exact ⟨0, Nat.zero_le _, .root⟩
  · rw [read]
    refine ⟨_, Nat.succ_le_of_lt ?_, .assertion hx about⟩
    apply countP_lt_countP _ hx above (Point.strictlyDominates_irrefl _ _)
    exact fun y _ first => Point.strictlyDominates_trans first above

section Undo

variable {f : Function} {loci : List AssertLocus}

variable (hf : f.Valid) (found : ∀ l ∈ loci, f.Registered (fun _ _ n => n < f.nameCount) l)
  (plain : ∀ b ∈ f.blocks, ∀ s ∈ b.stmts, s.isAssert = false)

include found plain

theorem length_subjects_asserted {r : Point → NameId → NameId} :
    ((f.withAssertions loci).renameUses r).assertionSubjects.length = (f.recordsFor loci).length := by
  have count : ∀ l : List Stmt, l.countP Stmt.isAssert = (l.map Stmt.isAssert).countP id := by
    intro l
    rw [List.countP_map]
    rfl
  have none : (f.blocks.flatMap Block.stmts).countP Stmt.isAssert = 0 := by
    refine List.countP_eq_zero.mpr fun s hs => ?_
    obtain ⟨b, hb, hs⟩ := List.mem_flatMap.mp hs
    simp [plain b hb s hs]
  have all : ((f.insertionsFor loci).map Insertion.stmt).countP Stmt.isAssert =
      (f.insertionsFor loci).length := by
    rw [List.countP_map, List.countP_eq_length]
    intro x hx
    obtain ⟨i, l, block, slot, -, rfl⟩ := mem_insertionsFor.mp hx
    rfl
  rw [length_assertionSubjects, count, isAssert_renameUses, ← count,
    (stmts_withAssertions_perm found).countP_eq, List.countP_append, none, all, Nat.zero_add]
  simp [insertionsFor, recordsFor]

include hf

/-- The names that assertions were inserted for, and what they read instead. -/
theorem mem_subjects_asserted {t : DominatorTree} {d x : NameId} :
    (d, x) ∈ ((f.withAssertions loci).renameUses (nameAt t
        ((f.withAssertions loci).assertionPoints (f.recordsFor loci)))).assertionSubjects ↔
      ∃ y ∈ (f.withAssertions loci).assertionPoints (f.recordsFor loci), d = y.1.derived ∧
        x = nameAt t ((f.withAssertions loci).assertionPoints (f.recordsFor loci)) y.2
          y.1.subject := by
  rw [mem_assertionSubjects]
  simp only [stmtAt?_renameUses, Option.map_eq_some_iff]
  constructor
  · rintro ⟨block, index, predicate, stmt, hstmt, renamed⟩
    rcases of_stmtAt?_withAssertions hstmt with ⟨i, old, -⟩ | ⟨i, l, slot, placed, rfl, -⟩
    · obtain ⟨b₀, hb₀, hi⟩ := stmtAt?_eq_some.mp old
      have unasserted := plain b₀ (List.mem_of_getElem? hb₀) stmt (List.mem_of_getElem? hi)
      rw [← Stmt.isAssert_rename, renamed] at unasserted
      cases unasserted
    · cases renamed
      exact ⟨_, (mem_assertionPoints hf found).mpr ⟨i, l, block, slot, index, placed, rfl, hstmt⟩,
        rfl, rfl⟩
  · rintro ⟨y, hy, rfl, rfl⟩
    obtain ⟨i, l, block, slot, index, placed, rfl, hstmt⟩ := (mem_assertionPoints hf found).mp hy
    exact ⟨block, index, _, _, hstmt, rfl⟩

omit plain in
theorem assertionPoints_unique {x y : AssertionRecord × Point}
    (hx : x ∈ (f.withAssertions loci).assertionPoints (f.recordsFor loci))
    (hy : y ∈ (f.withAssertions loci).assertionPoints (f.recordsFor loci))
    (same : x.1.derived = y.1.derived) : x = y := by
  obtain ⟨i, l, block, slot, index, placed, rfl, hstmt⟩ := (mem_assertionPoints hf found).mp hx
  obtain ⟨j, l', block', slot', index', placed', rfl, hstmt'⟩ :=
    (mem_assertionPoints hf found).mp hy
  refine assertionPoints_distinct hf found hx hy ?_
  have valid := withAssertions_valid hf found
  have site := valid.defSite?_stmt hstmt rfl
  have site' := valid.defSite?_stmt hstmt' rfl
  have same : f.nameCount + i = f.nameCount + j := same
  rw [same, site'] at site
  cases site
  rfl

theorem lookup_subjects_derived {t : DominatorTree} {x : AssertionRecord × Point}
    (hx : x ∈ (f.withAssertions loci).assertionPoints (f.recordsFor loci)) :
    ((f.withAssertions loci).renameUses (nameAt t
        ((f.withAssertions loci).assertionPoints (f.recordsFor loci)))).assertionSubjects.lookup
      x.1.derived = some (nameAt t
        ((f.withAssertions loci).assertionPoints (f.recordsFor loci)) x.2 x.1.subject) := by
  have listed := (mem_subjects_asserted (t := t) hf found plain).mpr ⟨x, hx, rfl, rfl⟩
  cases next : List.lookup x.1.derived _ with
  | none =>
      have absent := List.lookup_eq_none_iff.mp next _ listed
      simp at absent
  | some m =>
      obtain ⟨before, after, split, -⟩ := List.lookup_eq_some_iff.mp next
      have here : (x.1.derived, m) ∈ before ++ (x.1.derived, m) :: after := by simp
      rw [← split] at here
      obtain ⟨y, hy, derived, rfl⟩ := (mem_subjects_asserted hf found plain).mp here
      rw [assertionPoints_unique hf found hx hy derived]

theorem lookup_subjects_old {t : DominatorTree} {n : NameId} (hn : n < f.nameCount) :
    ((f.withAssertions loci).renameUses (nameAt t
        ((f.withAssertions loci).assertionPoints (f.recordsFor loci)))).assertionSubjects.lookup
      n = none := by
  refine List.lookup_eq_none_iff.mpr fun q hq => ?_
  obtain ⟨y, hy, derived, -⟩ := (mem_subjects_asserted hf found plain).mp hq
  obtain ⟨i, l, block, slot, index, -, rfl, -⟩ := (mem_assertionPoints hf found).mp hy
  have new : q.1 = f.nameCount + i := derived
  rw [bne_iff_ne]
  rintro rfl
  exact absurd hn (Nat.not_lt.mpr (new ▸ Nat.le_add_right _ _))

/-- The chain of assertions from what is read in place of a name ends at the name. -/
theorem assertionRoot_nameAt {g : Graph} {entry : Nat} {p : Point} {n : NameId}
    (hn : n < f.nameCount) :
    assertionRoot ((f.withAssertions loci).renameUses (nameAt (.ofGraph g entry)
        ((f.withAssertions loci).assertionPoints (f.recordsFor loci)))).assertionSubjects
      (nameAt (.ofGraph g entry)
        ((f.withAssertions loci).assertionPoints (f.recordsFor loci)) p n) = n := by
  obtain ⟨k, bound, start⟩ := @exists_chainAt_nameAt g entry
    ((f.withAssertions loci).assertionPoints (f.recordsFor loci)) p n
  refine chainEnd_eq ?_ start (Nat.le_trans bound ?_)
  · rintro k m (_ | ⟨hx, rfl⟩)
    · exact .inl ⟨lookup_subjects_old hf found plain hn, rfl⟩
    · obtain ⟨k', fewer, next⟩ := exists_chainAt_nameAt
      exact .inr ⟨k', _, Nat.lt_succ_of_le fewer, lookup_subjects_derived hf found plain hx, next⟩
  · -- every assertion has a subject, so the fuel is enough
    rw [length_subjects_asserted found plain]
    exact Nat.le_trans List.countP_le_length (List.length_filterMap_le ..)

/-- Without its assertions the function only has its edges split, and more names. -/
theorem stripAssertions_materialize : (f.materialize loci).1.stripAssertions =
    ({ f.splitAll (f.edgesToSplit loci) with names := (f.withAssertions loci).names },
      (f.recordsFor loci).length) := by
  rw [materialize_eq found hf, stripAssertions_eq, length_subjects_asserted found plain, dominators]
  generalize hr : nameAt (.ofGraph (f.withAssertions loci).graph (f.withAssertions loci).entry)
    ((f.withAssertions loci).assertionPoints (f.recordsFor loci)) = r
  generalize hroot : assertionRoot ((f.withAssertions loci).renameUses r).assertionSubjects = root
  have restores : ∀ p n, n < f.nameCount → root (r p n) = n := by
    intro p n hn
    rw [← hroot, ← hr]
    exact assertionRoot_nameAt hf found plain hn
  have reads : ∀ id b n, (f.splitAll (f.edgesToSplit loci)).block? id = some b → b.Reads n →
      n < f.nameCount := by
    intro id b n hb hn
    rcases of_block?_splitAll hb with ⟨b₀, hb₀, rfl⟩ | ⟨ends, rfl⟩
    · exact hf.reads_lt hb₀ (Block.reads_of_redirect hn)
    · simp [Block.Reads, splitBlock, Block.ofTerminator, Terminator.usedNames,
        Terminator.operands] at hn
  have unasserted : ∀ id b, (f.splitAll (f.edgesToSplit loci)).block? id = some b →
      ∀ s ∈ b.stmts, s.isAssert = false := by
    intro id b hb s hs
    rcases of_block?_splitAll hb with ⟨b₀, hb₀, rfl⟩ | ⟨ends, rfl⟩
    · exact plain b₀ (List.mem_of_getElem? hb₀) s hs
    · cases hs
  have blocks : ((f.withAssertions loci).renameUses r).blocks.map (stripBlock root) =
      (f.splitAll (f.edgesToSplit loci)).blocks := by
    refine List.ext_getElem? fun id => ?_
    rw [List.getElem?_map]
    change (((f.withAssertions loci).renameUses r).block? id).map _ =
      (f.splitAll (f.edgesToSplit loci)).block? id
    rw [block?_renameUses, withAssertions, block?_insertAll]
    cases hb : (f.splitAll (f.edgesToSplit loci)).block? id with
    | none => rfl
    | some b =>
        refine congrArg some (stripBlock_renameBlock (fun p n hn => restores p n ?_) ?_ ?_)
        · exact reads id b n hb hn
        · intro x hx
          obtain ⟨i, l, block, slot, -, rfl⟩ := mem_insertionsFor.mp hx
          rfl
        · exact unasserted id b hb
  simp only [blocks]
  rfl

end Undo

section Restored

/-- The block that a target stands for: a block put on an edge stands for the block it leads to. -/
def beyond (g : Function) (count : Nat) (t : BlockId) : BlockId :=
  if t < count then t else ((g.block? t).bind (·.terminator.targets.head?)).getD t

/-- The block that a predecessor stands for: a block put on an edge stands for the block from which
    it is entered. -/
def behind (g : Function) (count : Nat) (p : BlockId) : BlockId :=
  if p < count then p else (g.predecessors p).head?.getD p

variable {f g : Function} {splits : List (BlockId × BlockId)} (ok : f.Splittable splits)
  (blocks : g.blocks = (f.splitAll splits).blocks)

include ok blocks

theorem beyond_forth {src t : BlockId} (old : t < f.blockCount) :
    g.beyond f.blockCount (f.forth splits src t) = t := by
  cases split : f.bypass? splits (src, t) with
  | none =>
      rw [forth, split, Option.getD_none, beyond, if_pos old]
  | some new =>
      obtain ⟨i, hi, rfl⟩ := (bypass?_eq_some ok.nodup).mp split
      have here : g.block? (f.blockCount + i) = some (splitBlock t) := by
        rw [block?, blocks]
        exact block?_splitAll_new.trans (by rw [hi]; rfl)
      rw [ok.forth_eq_new hi, beyond, if_neg (by simp), here]
      rfl

theorem behind_back (hf : f.Valid) {dst p : BlockId} (old : p < f.blockCount) :
    g.behind f.blockCount (f.back splits dst p) = p := by
  cases split : f.bypass? splits (p, dst) with
  | none =>
      rw [back, split, Option.getD_none, behind, if_pos old]
  | some new =>
      obtain ⟨i, hi, rfl⟩ := (bypass?_eq_some ok.nodup).mp split
      have entered : g.predecessors (f.blockCount + i) = [p] := by
        rw [← ok.predecessors_new hf hi, predecessors, predecessors,
          edges_of_outline (congrArg (List.map Block.outline) blocks)]
      rw [ok.back_eq_new hi, behind, if_neg (by simp), entered]
      rfl

/-- Every old block is restored when the blocks on edges are skipped. -/
theorem redirect_restores (hf : f.Valid) {id : BlockId} {b : Block} (hb : f.block? id = some b) :
    (b.redirect (f.forth splits id) (f.back splits id)).redirect (g.beyond f.blockCount)
      (g.behind f.blockCount) = b := by
  rw [Block.redirect_redirect]
  refine (Block.redirect_congr (fun t ht => ?_) fun phi hphi o ho => ?_).trans b.redirect_id
  · refine beyond_forth ok blocks (hf.targets b (List.mem_of_getElem? hb) t ?_)
    exact List.mem_append_left _ ht
  · obtain ⟨-, -, operands, -⟩ := checkPhi_eq_ok.mp (hf.phis id b hb phi hphi)
    exact behind_back ok blocks hf (operands o ho).1

end Restored

end Function

/-- Removing assertions undoes inserting them. As many assertions are removed as were inserted. The
    names are the old ones and more. Every old block is as it was, except that its targets and the
    predecessors of its merges may be blocks on edges, and these stand for the old ones. Every other
    block is an empty one on an edge. The edges are those that the assertions were on. -/
theorem stripAssertions_insertAssertions {f : Function} {config : Config}
    (valid : f.validate = .ok ())
    (plain : ∀ b ∈ f.blocks, ∀ s ∈ b.stmts, s.isAssert = false) :
    let inserted := f.insertAssertions config
    let g := inserted.1.stripAssertions.1
    inserted.1.stripAssertions.2 = inserted.2.length ∧
    f.names <+: g.names ∧
    (∀ id b, f.block? id = some b → ∃ c, g.block? id = some c ∧ c.stmts = b.stmts ∧
      c.redirect (g.beyond f.blockCount) (g.behind f.blockCount) = b) ∧
    (∀ id c, f.blockCount ≤ id → g.block? id = some c → ∃ src dst,
      c = Function.splitBlock dst ∧ dst < f.blockCount ∧ g.predecessors id = [src] ∧
        src < f.blockCount) ∧
    g.edges = inserted.1.edges := by
  have hf := Function.valid_of_validate valid
  have found := fun l (hl : l ∈ f.findAssertions config) => hf.readsHave_lt.registered hl
  have ok := Function.splittable_edgesToSplit found
  have stripped := Function.stripAssertions_materialize hf found plain
  have removed : (f.materialize (f.findAssertions config)).1.stripAssertions.2 =
      (f.materialize (f.findAssertions config)).2.length := by
    rw [stripped, Function.materialize_eq found hf]
  have names : f.names <+:
      (f.materialize (f.findAssertions config)).1.stripAssertions.1.names := by
    rw [stripped]
    exact List.prefix_append ..
  have blocks : (f.materialize (f.findAssertions config)).1.stripAssertions.1.blocks =
      (f.splitAll (f.edgesToSplit (f.findAssertions config))).blocks := by
    rw [stripped]
  have outline : (f.splitAll (f.edgesToSplit (f.findAssertions config))).blocks.map Block.outline =
      (f.materialize (f.findAssertions config)).1.blocks.map Block.outline := by
    rw [Function.materialize_eq found hf]
    exact Function.outline_asserted.symm
  rw [Function.insertAssertions_eq]
  dsimp only
  -- from here on only the blocks of the result count, and they are those of the split function
  generalize (f.materialize (f.findAssertions config)).1.stripAssertions.1 = g at names blocks ⊢
  have sameOutline := congrArg (List.map Block.outline) blocks
  have lookup : ∀ id, g.block? id = (f.splitAll (f.edgesToSplit (f.findAssertions config))).block? id :=
    fun id => congrArg (fun l : List Block => l[id]?) blocks
  refine ⟨removed, names, ?_, ?_, Function.edges_of_outline (sameOutline.trans outline)⟩
  · intro id b hb
    have old : id < f.blockCount := (List.getElem?_eq_some_iff.mp hb).1
    have here := lookup id
    rw [Function.block?_splitAll_old old, hb] at here
    exact ⟨_, here, rfl, Function.redirect_restores ok blocks hf hb⟩
  · intro id c new hc
    obtain ⟨i, rfl⟩ := Nat.exists_eq_add_of_le new
    rw [lookup, Function.block?_splitAll_new] at hc
    obtain ⟨⟨src, dst⟩, hi, rfl⟩ := Option.map_eq_some_iff.mp hc
    have bounds := hf.feeds_lt (ok.feeds (List.mem_of_getElem? hi))
    refine ⟨src, dst, rfl, bounds.2, ?_, bounds.1⟩
    rw [← ok.predecessors_new hf hi, Function.predecessors, Function.predecessors,
      Function.edges_of_outline sameOutline]

/-- Replaces a number that is not below ten by ten. Both edges that leave the test get a fact about
    the number, and the edge that skips the replacement gets a block of its own. -/
def capAtTen : Function where
  name := "cap"
  names :=
    [ ⟨.int ⟨8, eight_bits⟩ .signed, .param 0 false⟩,
      ⟨.int ⟨8, eight_bits⟩ .signed, .defined⟩,
      ⟨.int ⟨8, eight_bits⟩ .signed, .defined⟩ ]
  blocks :=
    [ .ofTerminator (.branch ⟨.lt, .name 0, .const 10⟩ 2 1),
      ⟨[], [.assign 1 (.binary .min (.name 0) (.const 10))], .jump 2, [], false⟩,
      ⟨[⟨2, [⟨0, .name 0⟩, ⟨1, .name 1⟩]⟩], [], .return (some (.name 2)), [], false⟩ ]

theorem capAtTen_dominators : capAtTen.dominators = ⟨0, #[some [], some [0], some [0]]⟩ := by
  have without : DominatorTree.reachedWithout capAtTen.graph 0 =
      #[#[false, false, false], #[true, false, true], #[true, true, false]] := by
    cbv
  have reached : Graph.mark capAtTen.graph.size (capAtTen.graph.postorder 0) =
      #[true, true, true] := by
    cbv
  rw [Function.dominators, Function.entry,
    DominatorTree.ofGraph_of_stages #[[], [0], [0]] without rfl reached]
  cbv

/-- Both assertions are removed, and the edges are the four that propagation sees. -/
theorem stripAssertions_insertAssertions_capAtTen :
    let inserted := capAtTen.insertAssertions {}
    inserted.1.stripAssertions.2 = 2 ∧
      inserted.1.stripAssertions.1.edges.map (fun e => (e.src, e.dst)) =
        [(0, 3), (0, 1), (1, 2), (3, 2)] := by
  have removes := @stripAssertions_insertAssertions capAtTen {} rfl (by decide)
  have found : capAtTen.findAssertions {} =
      [⟨0, .compare .lt (.const 10), .edge 0⟩, ⟨0, .compare .ge (.const 10), .edge 1⟩] := by
    simp only [Function.findAssertions, capAtTen_dominators]
    cbv
  refine ⟨removes.1.trans ?_, ?_⟩
  · rw [Function.insertAssertions_eq, found]
    rfl
  · rw [removes.2.2.2.2, Function.insertAssertions_eq, found]
    rfl

end RangeFlow
