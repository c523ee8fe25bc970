import RangeFlow.Proofs.AssertedForm
import RangeFlow.Proofs.Stripping

/-! # Assertions follow executions

Every execution of a function is also one of the function with assertions. It runs the assertions
between the old statements, and all of them hold. The names that are read in place of others are
copies of them. So old names have the same values at the same statements.
-/

namespace RangeFlow

theorem AssertLocus.Holds.congr {a : AssertLocus} {env env' : Env}
    (same : ∀ n ∈ a.reads, env' n = env n) (h : a.Holds env) : a.Holds env' := by
  obtain ⟨v, hv, holds⟩ := h
  refine ⟨v, (same a.name (List.mem_cons_self ..)).trans hv, ?_⟩
  cases predicate : a.predicate with
  | within low high negated =>
      rw [predicate] at holds
      exact holds
  | compare op limit =>
      rw [predicate] at holds
      obtain ⟨l, hl, compared⟩ := holds
      refine ⟨l, (Env.operand_congr fun n hn => same n ?_).trans hl, compared⟩
      have read : n ∈ [limit].filterMap Operand.name? := by simp [hn, Operand.name?]
      rw [reads, predicate]
      exact List.mem_cons_of_mem _ read

namespace Function

/-- What a name is read as at a point of the function with assertions. -/
def readAs (f : Function) (loci : List AssertLocus) : Point → NameId → NameId :=
  nameAt (f.withAssertions loci).dominators
    ((f.withAssertions loci).assertionPoints (f.recordsFor loci))

/-- The function with the assertions of facts. -/
def asserted (f : Function) (loci : List AssertLocus) : Function :=
  (f.withAssertions loci).renameUses (f.readAs loci)

/-- The facts have places, their names are set there, and they hold whenever their places are
    passed. -/
structure Observed (f : Function) (config : Config) (loci : List AssertLocus) : Prop where
  found : ∀ l ∈ loci, f.Registered (fun _ _ n => n < f.nameCount) l
  dominated : ∀ l ∈ loci, f.Registered (fun block index n => f.Dominated n block index) l
  holds : ∀ l ∈ loci, ∀ env, f.Passes config l.locus env → l.Holds env

/-- The facts that are found can be observed. -/
theorem Valid.observed {f : Function} (hf : f.Valid) (uses : f.UsesDominated) (config : Config) :
    f.Observed config (f.findAssertions config) where
  found _ hl := hf.readsHave_lt.registered hl
  dominated _ hl := uses.readsHave.registered hl
  holds l hl env passes := by
    obtain ⟨block, -, hl⟩ := List.mem_flatMap.mp (mem_requested_of_mem_findAssertions hl)
    exact blockAssertions_hold hf uses hl passes

section Blocks

variable {f : Function} {config : Config} {loci : List AssertLocus}

/-- What becomes of a block. -/
def assertedBlock (f : Function) (loci : List AssertLocus) (id : BlockId) (b : Block) : Block :=
  renameBlock (f.readAs loci) id
    { b.redirect (f.forth (f.edgesToSplit loci) id) (f.back (f.edgesToSplit loci) id) with
      stmts := insertStmts (f.insertionsFor loci) id b.stmts }

/-- A block on an edge to the target. -/
def assertedSplit (f : Function) (loci : List AssertLocus) (id target : BlockId) : Block :=
  renameBlock (f.readAs loci) id
    { splitBlock target with stmts := insertStmts (f.insertionsFor loci) id [] }

theorem block?_asserted_old {id : BlockId} {b : Block} (hb : f.block? id = some b) :
    (f.asserted loci).block? id = some (f.assertedBlock loci id b) := by
  rw [asserted, block?_renameUses, block?_withAssertions_old (List.getElem?_eq_some_iff.mp hb).1,
    hb]
  rfl

theorem block?_asserted_new {i : Nat} {src target : BlockId}
    (hi : (f.edgesToSplit loci)[i]? = some (src, target)) :
    (f.asserted loci).block? (f.blockCount + i) =
      some (f.assertedSplit loci (f.blockCount + i) target) := by
  rw [asserted, block?_renameUses, block?_withAssertions_new, hi]
  rfl

theorem stmtAt?_asserted {block : BlockId} {i : Nat} {stmt : Stmt}
    (h : f.stmtAt? block i = some stmt) :
    (f.asserted loci).stmtAt? block (newIndex (f.insertionsFor loci) block i) =
      some (stmt.rename
        (f.readAs loci ⟨block, .before (newIndex (f.insertionsFor loci) block i)⟩)) := by
  obtain ⟨b, hb, hi⟩ := stmtAt?_eq_some.mp h
  have moved : (f.withAssertions loci).stmtAt? block (newIndex (f.insertionsFor loci) block i) =
      some stmt := by
    rw [stmtAt?, block?_withAssertions_old (List.getElem?_eq_some_iff.mp hb).1, hb]
    exact getElem?_insertStmts hi
  rw [asserted, stmtAt?_renameUses, moved]
  rfl

theorem phis_assertedBlock {id : BlockId} {b : Block} : (f.assertedBlock loci id b).phis =
    b.phis.map fun phi => (phi.redirect (f.back (f.edgesToSplit loci) id)).rename
      fun p => f.readAs loci ⟨p, .blockEnd⟩ := by
  rw [assertedBlock, renameBlock_eq]
  exact List.map_map

theorem length_assertedBlock {id : BlockId} {b : Block} :
    (f.assertedBlock loci id b).stmts.length =
      newIndex (f.insertionsFor loci) id b.stmts.length := by
  rw [assertedBlock, renameBlock_eq]
  simp [length_insertStmts]

theorem length_assertedSplit {id target : BlockId} : (f.assertedSplit loci id target).stmts.length =
    (slotStmts (f.insertionsFor loci) id .start).length := by
  rw [assertedSplit, renameBlock_eq]
  simp [length_insertStmts, newIndex, offset]

theorem mem_usedNames_assertedBlock {id : BlockId} {b : Block} {n : NameId}
    (h : n ∈ b.terminator.usedNames) : f.readAs loci ⟨id, .blockEnd⟩ n ∈
      (f.assertedBlock loci id b).terminator.usedNames := by
  rw [assertedBlock, renameBlock_eq]
  dsimp only [Block.redirect]
  rw [Terminator.usedNames_rename, Terminator.usedNames, Terminator.operands_retarget]
  exact List.mem_map_of_mem h

theorem of_mem_slotStmts {block : BlockId} {slot : Slot} {stmt : Stmt}
    (h : stmt ∈ slotStmts (f.insertionsFor loci) block slot) : ∃ i l, l ∈ loci ∧
      f.PlacedAt (f.edgesToSplit loci) l.locus block slot ∧
      stmt = .assign (f.nameCount + i) (.assert l.name l.predicate) := by
  obtain ⟨x, hx, rfl, rfl, rfl⟩ := mem_slotStmts.mp h
  obtain ⟨i, l, block, slot, placed, rfl⟩ := mem_insertionsFor.mp hx
  obtain ⟨hl, place⟩ := of_mem_placements (List.mem_of_getElem? placed)
  exact ⟨i, l, hl, place, rfl⟩

end Blocks

/-- At the end of a block no assertion runs. -/
theorem Leaves.asserted {f : Function} {s : ExecState} {target : BlockId}
    (leave : f.Leaves s target) : f.Asserted s := by
  intro dest subject predicate h
  obtain ⟨b, hb, atEnd, -⟩ := leave
  obtain ⟨b', hb', hi⟩ := stmtAt?_eq_some.mp h
  rw [hb] at hb'
  cases hb'
  rw [atEnd, List.getElem?_eq_none (Nat.le_refl _)] at hi
  cases hi

section Merged

variable {f : Function} {id : EdgeId} {e : Edge}

/-- The merges of a block with one edge into it do not set names that are set at the source of the
    edge. -/
theorem Valid.not_merged (hf : f.Valid) (he : f.edge? id = some e)
    (single : (f.predEdges e.dst).length = 1) (inner : e.dst ≠ f.entry)
    (reached : f.Reachable e.src) {t : Block} (ht : f.block? e.dst = some t) {n : NameId} {k : Nat}
    (set : f.Dominated n e.src k) : n ∉ t.phis.map Phi.dest := by
  intro merged
  obtain ⟨phi, hphi, rfl⟩ := List.mem_map.mp merged
  obtain ⟨index, hi⟩ := List.mem_iff_getElem?.mp hphi
  obtain ⟨site, hsite, dominates⟩ := set
  rw [hf.defSite?_phi (phiAt?_eq_some.mpr ⟨t, ht, hi⟩)] at hsite
  cases hsite
  obtain ⟨passed, way⟩ := reached
  have toTarget : ∀ passed, f.Path e.dst passed → (e.src = e.dst ∧ False) ∨ e.src ∈ passed := by
    intro passed way
    rcases way.cases_feeds with ⟨start, -⟩ | ⟨p, before, rfl, -, fed⟩
    · exact absurd start inner
    · rw [eq_src_of_feeds he single fed]
      exact .inr (List.mem_cons_self ..)
  exact Path.not_both_before toTarget (dominates e.dst 0 rfl) (fun both => both.1) way

end Merged

section Following

variable {f : Function} {config : Config} {loci : List AssertLocus} (hf : f.Valid)
  (uses : f.UsesDominated) (facts : f.Observed config loci)
  (entered : (f.predEdges f.entry).length ≠ 1)

include hf facts

theorem valid_asserted : (f.asserted loci).Valid := by
  have valid := valid_materialize hf facts.found
  rw [materialize_eq facts.found hf] at valid
  exact valid

theorem renames_readAs (p : Point) : Renames f (f.asserted loci) (f.readAs loci p) :=
  have keeps := renames_nameAt hf facts.found (f.withAssertions loci).dominators p
  ⟨keeps.lt, keeps.type⟩

include uses entered in
theorem usesDominated_asserted : (f.asserted loci).UsesDominated := by
  have set := usesDominated_materialize hf facts.found
    (reads_dominated hf uses facts.dominated facts.found entered)
  rw [materialize_eq facts.found hf] at set
  exact set

/-- A chain of assertions about a name has the value of the name, where it is set. -/
theorem Consistent.eq_of_chainAt (usesAsserted : (f.asserted loci).UsesDominated)
    {block : BlockId} {index : Nat} {env : Env}
    (consistent : (f.asserted loci).Consistent config block index env) {k : Nat} {m n : NameId}
    (chain : ChainAt (f.withAssertions loci).dominators
      ((f.withAssertions loci).assertionPoints (f.recordsFor loci)) n k m)
    (set : (f.asserted loci).Dominated m block index) : env m = env n := by
  induction k using Nat.strongRecOn generalizing m with
  | _ k ih =>
      cases chain with
      | root => rfl
      | @assertion x member about =>
          obtain ⟨i, l, block', slot, place, -, rfl, hstmt⟩ :=
            (mem_assertionPoints hf facts.found).mp member
          cases about
          have here : (f.asserted loci).stmtAt? block' place = some (.assign (f.nameCount + i)
              (.assert (f.readAs loci ⟨block', .before place⟩ l.name)
                (l.predicate.rename (f.readAs loci ⟨block', .before place⟩)))) := by
            rw [asserted, stmtAt?_renameUses, hstmt]
            rfl
          obtain ⟨site, hsite, dominates⟩ := set
          rw [(valid_asserted hf facts).defSite?_stmt here rfl] at hsite
          cases hsite
          obtain ⟨v, hv, copied⟩ := consistent.defined _ _ _ _ here dominates
          obtain ⟨k', nearer, next⟩ := @exists_chainAt_nameAt (f.withAssertions loci).graph
            (f.withAssertions loci).entry
            ((f.withAssertions loci).assertionPoints (f.recordsFor loci)) ⟨block', .before place⟩
            l.name
          have read : env (f.readAs loci ⟨block', .before place⟩ l.name) = env l.name :=
            ih k' (Nat.lt_succ_of_le nearer) next
              (usesAsserted.read_of_def here dominates (List.mem_cons_self ..))
          exact hv.trans (copied.symm.trans read)

/-- What a name is read as has the value of the name. -/
theorem Consistent.readAs (usesAsserted : (f.asserted loci).UsesDominated)
    {block : BlockId} {index : Nat} {env : Env}
    (consistent : (f.asserted loci).Consistent config block index env) {p : Point} {n : NameId}
    (set : (f.asserted loci).Dominated (f.readAs loci p n) block index) :
    env (f.readAs loci p n) = env n := by
  obtain ⟨k, -, chain⟩ := @exists_chainAt_nameAt (f.withAssertions loci).graph
    (f.withAssertions loci).entry
    ((f.withAssertions loci).assertionPoints (f.recordsFor loci)) p n
  exact consistent.eq_of_chainAt hf facts usesAsserted chain set

/-- Assertions that hold and stand one after the other run, and set new names only. -/
theorem Arrives.pass_assertions (usesAsserted : (f.asserted loci).UsesDominated)
    {block : BlockId} {base : Nat} {stmts : List Stmt} {env : Env}
    (arrives : (f.asserted loci).Arrives config ⟨block, base, env⟩)
    (stand : ∀ (k : Nat) stmt, stmts[k]? = some stmt →
      (f.withAssertions loci).stmtAt? block (base + k) = some stmt)
    (hold : ∀ stmt ∈ stmts, ∃ i, ∃ l ∈ loci,
      stmt = .assign (f.nameCount + i) (.assert l.name l.predicate) ∧ l.Holds env) :
    ∃ env', (f.asserted loci).Arrives config ⟨block, base + stmts.length, env'⟩ ∧
      env'.AgreesBelow f.nameCount env := by
  induction stmts generalizing base env with
  | nil => exact ⟨env, arrives, fun _ _ => rfl⟩
  | cons stmt stmts ih =>
      obtain ⟨i, l, hl, rfl, v, hv, holds⟩ := hold stmt (List.mem_cons_self ..)
      have first := stand 0 _ rfl
      rw [Nat.add_zero] at first
      have here : (f.asserted loci).stmtAt? block base = some
          ((Stmt.assign (f.nameCount + i) (.assert l.name l.predicate)).rename
            (f.readAs loci ⟨block, .before base⟩)) := by
        rw [asserted, stmtAt?_renameUses, first]
        rfl
      have consistent := arrives.reaches.consistent (valid_asserted hf facts) usesAsserted
      have read : ∀ n ∈ l.reads, env (f.readAs loci ⟨block, .before base⟩ n) = env n := by
        intro n hn
        refine consistent.readAs hf facts usesAsserted (usesAsserted.stmt _ _ _ _ here ?_)
        rw [Stmt.usedNames_rename]
        exact List.mem_map_of_mem hn
      have subject := (read l.name (List.mem_cons_self ..)).trans hv
      have next : (f.asserted loci).Arrives config
          ⟨block, base + 1, env.set (f.nameCount + i) v⟩ := by
        refine arrives.step ?_ (.stmt here (.assign subject))
        intro dest subject' predicate same v' hv'
        rw [here] at same
        cases same
        cases hv'.symm.trans subject
        refine holds.rename fun op m limit => read m ?_
        simp [AssertLocus.reads, Rhs.usedNames, Rhs.operands, limit, Operand.name?]
      have kept : (env.set (f.nameCount + i) v).AgreesBelow f.nameCount env := fun n hn =>
        Env.set_of_ne _ _ (Nat.ne_of_lt (Nat.lt_add_right i hn))
      obtain ⟨env', arrives', agree⟩ := ih next
        (fun k stmt hk => by
          rw [Nat.add_assoc, Nat.add_comm 1 k]
          exact stand (k + 1) stmt hk)
        (fun stmt hstmt => by
          obtain ⟨i', l', hl', same, holds'⟩ := hold stmt (List.mem_cons_of_mem _ hstmt)
          exact ⟨i', l', hl', same,
            holds'.congr fun n hn => kept n ((facts.found l' hl').reads n hn)⟩)
      refine ⟨env', ?_, fun n hn => (agree n hn).trans (kept n hn)⟩
      rw [List.length_cons, Nat.add_comm stmts.length 1, ← Nat.add_assoc]
      exact arrives'

/-- The assertions in a slot run, if they hold where the slot is. -/
theorem Arrives.pass_slot (usesAsserted : (f.asserted loci).UsesDominated)
    {block : BlockId} (slot : Slot) {b : Block} {old : List Stmt} {env env' : Env}
    (hb : (f.withAssertions loci).block? block = some b)
    (stmts : b.stmts = insertStmts (f.insertionsFor loci) block old)
    (exists_ : ∀ i, slot = .after i → i < old.length)
    (arrives : (f.asserted loci).Arrives config
      ⟨block, slotIndex (f.insertionsFor loci) block slot, env'⟩)
    (agree : env'.AgreesBelow f.nameCount env)
    (hold : ∀ l ∈ loci, f.PlacedAt (f.edgesToSplit loci) l.locus block slot → l.Holds env) :
    ∃ env'', (f.asserted loci).Arrives config ⟨block, slotIndex (f.insertionsFor loci) block slot +
        (slotStmts (f.insertionsFor loci) block slot).length, env''⟩ ∧
      env''.AgreesBelow f.nameCount env := by
  have stand : ∀ (k : Nat) stmt, (slotStmts (f.insertionsFor loci) block slot)[k]? = some stmt →
      (f.withAssertions loci).stmtAt? block
        (slotIndex (f.insertionsFor loci) block slot + k) = some stmt := by
    intro k stmt hk
    refine stmtAt?_eq_some.mpr ⟨b, hb, ?_⟩
    rw [stmts]
    exact getElem?_insertStmts_slot exists_ hk
  have held : ∀ stmt ∈ slotStmts (f.insertionsFor loci) block slot, ∃ i, ∃ l ∈ loci,
      stmt = .assign (f.nameCount + i) (.assert l.name l.predicate) ∧ l.Holds env' := by
    intro stmt hstmt
    obtain ⟨i, l, hl, place, same⟩ := of_mem_slotStmts hstmt
    exact ⟨i, l, hl, same, (hold l hl place).congr fun n hn =>
      agree n ((facts.found l hl).reads n hn)⟩
  obtain ⟨env'', arrives'', kept⟩ := arrives.pass_assertions hf facts usesAsserted stand held
  exact ⟨env'', arrives'', fun n hn => (kept n hn).trans (agree n hn)⟩

end Following

/-- The function with assertions is at the same statement, and old names have the same values. -/
structure Follows (f : Function) (loci : List AssertLocus) (x y : ExecState) : Prop where
  block : y.block = x.block
  index : y.index = newIndex (f.insertionsFor loci) x.block x.index
  agree : y.env.AgreesBelow f.nameCount x.env

/-- The block was put on an edge to the target. -/
def OnSplit (g : Function) (block target : BlockId) : Prop :=
  ∃ b, g.block? block = some b ∧ b.split = true ∧ b.terminator = .jump target

section Steps

variable {f : Function} {config : Config} {loci : List AssertLocus} (hf : f.Valid)
  (uses : f.UsesDominated) (facts : f.Observed config loci)
  (entered : (f.predEdges f.entry).length ≠ 1) {x y : ExecState} {target : BlockId}

include hf uses facts entered

/-- What is asserted at the head of a block holds when control comes to the block, behind its
    merges. -/
theorem Observed.holds_at_head {t : Block} (reaches : f.Reaches config x)
    (leave : f.Leaves x target) (ht : f.block? target = some t) {l : AssertLocus} (hl : l ∈ loci)
    (place : f.PlacedAt (f.edgesToSplit loci) l.locus target .start) :
    l.Holds (t.mergeFrom x.block x.env) := by
  have fed : f.Feeds x.block target := by
    obtain ⟨b, hb, -, member⟩ := leave.mem_targets
    exact ⟨b, hb, member⟩
  have registered := facts.dominated l hl
  have holds := facts.holds l hl
  unfold Registered at registered
  generalize l.locus = locus at place registered holds
  cases place with
  | split he hi =>
      exact absurd (hf.feeds_lt fed).2 (Nat.not_lt.mpr (Nat.le_add_right _ _))
  | @head id e he single =>
      have src := eq_src_of_feeds he single fed
      have inner : e.dst ≠ f.entry := fun start => entered (start ▸ single)
      obtain ⟨e', b, he', -, -, set⟩ := registered
      rw [he] at he'
      cases he'
      refine (holds x.env (.edge reaches he src.symm leave)).congr fun n hn => ?_
      refine Block.mergeFrom_of_not_mem (hf.not_merged he single inner ?_ ht (set n hn))
      exact src ▸ (reaches.consistent hf uses).way

omit hf uses entered in
/-- What is asserted in a block on an edge holds when control takes the edge. -/
theorem Observed.holds_on_split {i : Nat} (reaches : f.Reaches config x) (leave : f.Leaves x target)
    (hi : (f.edgesToSplit loci)[i]? = some (x.block, target)) {l : AssertLocus} (hl : l ∈ loci)
    (place : f.PlacedAt (f.edgesToSplit loci) l.locus (f.blockCount + i) .start) :
    l.Holds x.env := by
  have holds := facts.holds l hl
  generalize new : f.blockCount + i = block at place
  generalize l.locus = locus at place holds
  cases place with
  | @split id e i' he hi' =>
      cases Nat.add_left_cancel new
      rw [hi] at hi'
      obtain ⟨src, rfl⟩ := Prod.mk.inj (Option.some.inj hi')
      exact holds x.env (.edge reaches he src.symm leave)
  | @head id e he single =>
      obtain ⟨_, t, _, _, ht, -⟩ := mem_edges.mp (mem_edges_of_edge? he)
      have inside : e.dst < f.blockCount := (List.getElem?_eq_some_iff.mp ht).1
      exact absurd inside (Nat.not_lt.mpr (new ▸ Nat.le_add_right _ _))

/-- If control can leave the block for a target, it can do so with assertions, by the edge or by the
    block that was put on it. -/
theorem Follows.leaves (follows : f.Follows loci x y)
    (arrives : (f.asserted loci).Arrives config y) (reaches : f.Reaches config x)
    (leave : f.Leaves x target) :
    ∃ y', (f.asserted loci).Arrives config y' ∧
      y'.block = f.back (f.edgesToSplit loci) target x.block ∧
      y'.env.AgreesBelow f.nameCount x.env ∧ (f.asserted loci).Leaves y' target ∧
      (y' = y ∨
        (f.asserted loci).Leaves y y'.block ∧ (f.asserted loci).OnSplit y'.block target) := by
  have usesAsserted := usesDominated_asserted hf uses facts entered
  have ok := splittable_edgesToSplit facts.found
  obtain ⟨_, _, env⟩ := y
  obtain ⟨rfl, rfl, agree⟩ := follows
  dsimp only at agree ⊢
  obtain ⟨b, hb, atEnd, taken⟩ := leave
  have moved := @block?_asserted_old f loci _ _ hb
  have ended : newIndex (f.insertionsFor loci) x.block x.index =
      (f.assertedBlock loci x.block b).stmts.length := by
    rw [length_assertedBlock, atEnd]
  -- the terminator chooses the target, or the block on the way to it
  have selects : f.Selects x.env target b.terminator → (f.asserted loci).Selects env
      (f.forth (f.edgesToSplit loci) x.block target)
      (f.assertedBlock loci x.block b).terminator := by
    have known := fun n (hn : n ∈ b.terminator.usedNames) => hf.terminator_usedNames_lt hb hn
    refine (renames_readAs hf facts _).selects _ known fun n hn => ?_
    have consistent := arrives.reaches.consistent (valid_asserted hf facts) usesAsserted
    have set := usesAsserted.terminator x.block _ _ moved (mem_usedNames_assertedBlock hn)
    rw [← ended] at set
    exact (consistent.readAs hf facts usesAsserted set).trans (agree n (known n hn))
  cases bypass : f.bypass? (f.edgesToSplit loci) (x.block, target) with
  | none =>
      have direct : f.forth (f.edgesToSplit loci) x.block target = target := by
        rw [forth, bypass, Option.getD_none]
      refine ⟨_, arrives, ?_, agree, ⟨_, moved, ended, taken.imp_left fun selected => ?_⟩, .inl rfl⟩
      · rw [back, bypass, Option.getD_none]
      · have selected := selects selected
        rw [direct] at selected
        exact selected
  | some new =>
      obtain ⟨i, hi, rfl⟩ := (bypass?_eq_some ok.nodup).mp bypass
      have selected := taken.resolve_right fun raised => by
        obtain ⟨b', hb', -, regular⟩ := ok.taken _ _ (List.mem_of_getElem? hi)
        rw [hb] at hb'
        cases hb'
        exact regular raised
      have around := selects selected
      rw [ok.forth_eq_new hi] at around
      have leaves : (f.asserted loci).Leaves ⟨x.block, _, env⟩ (f.blockCount + i) :=
        ⟨_, moved, ended, .inl around⟩
      have new := @block?_asserted_new f loci _ _ _ hi
      have inside : (f.asserted loci).Arrives config ⟨f.blockCount + i, 0, env⟩ :=
        arrives.step leaves.asserted (.edge leaves new)
      have unnamed : (f.withAssertions loci).block? (f.blockCount + i) = some
          { splitBlock target with
            stmts := insertStmts (f.insertionsFor loci) (f.blockCount + i) [] } := by
        rw [block?_withAssertions_new, hi]
        rfl
      obtain ⟨env', arrives', agree'⟩ := inside.pass_slot hf facts usesAsserted .start unnamed rfl
        (fun _ behind => by cases behind) agree fun l hl place =>
          facts.holds_on_split reaches ⟨b, hb, atEnd, .inl selected⟩ hi hl place
      refine ⟨_, arrives', (ok.back_eq_new hi).symm, agree', ⟨_, new, ?_, .inl rfl⟩,
        .inr ⟨leaves, _, new, rfl, rfl⟩⟩
      rw [length_assertedSplit]
      exact Nat.zero_add _

/-- The execution of the function with assertions takes an edge, and then passes the assertions at
    the head of the block that the edge leads to. -/
theorem Follows.edge_step (follows : f.Follows loci x y)
    (arrives : (f.asserted loci).Arrives config y) (reaches : f.Reaches config x)
    (leave : f.Leaves x target) {t : Block} (ht : f.block? target = some t) :
    ∃ y', (f.asserted loci).Arrives config y' ∧
      f.Follows loci ⟨target, 0, t.mergeFrom x.block x.env⟩ y' := by
  have usesAsserted := usesDominated_asserted hf uses facts entered
  have ok := splittable_edgesToSplit facts.found
  have valid := valid_asserted hf facts
  obtain ⟨y', arrives', source, agree, leave', -⟩ :=
    follows.leaves hf uses facts entered arrives reaches leave
  have consistent := arrives'.reaches.consistent valid usesAsserted
  have moved := @block?_asserted_old f loci _ _ ht
  have merged : ((f.assertedBlock loci target t).mergeFrom y'.block y'.env).AgreesBelow
      f.nameCount (t.mergeFrom x.block x.env) := by
    intro n hn
    rw [source]
    refine Block.mergeFrom_redirect phis_assertedBlock (fun phi hphi o ho same => ?_)
      (fun phi hphi o ho here m hm => ?_) (agree n hn)
    · obtain ⟨-, -, operands, -⟩ := checkPhi_eq_ok.mp (hf.phis target t ht phi hphi)
      obtain ⟨b, hb, -⟩ := leave
      exact ok.back_inj (operands o ho).1 (List.getElem?_eq_some_iff.mp hb).1 same
    · obtain ⟨index, hi⟩ := List.mem_iff_getElem?.mp hphi
      have renamed : (f.asserted loci).phiAt? target index = some
          ((phi.redirect (f.back (f.edgesToSplit loci) target)).rename
            fun p => f.readAs loci ⟨p, .blockEnd⟩) := by
        refine phiAt?_eq_some.mpr ⟨_, moved, ?_⟩
        rw [phis_assertedBlock, List.getElem?_map, hi]
        rfl
      obtain ⟨b', hb', atEnd, -⟩ := leave'
      rw [source, ← here] at hb'
      have set := usesAsserted.phi target index _ _ (f.readAs loci ⟨_, .blockEnd⟩ m) b' renamed
        (List.mem_map_of_mem (List.mem_map_of_mem ho)) (by rw [hm]; rfl) hb'
      dsimp only at set
      rw [here, ← source, ← atEnd] at set
      rw [← source]
      refine (consistent.readAs hf facts usesAsserted set).trans (agree m ?_)
      have typed := hf.phi_typed (phiAt?_eq_some.mpr ⟨t, ht, hi⟩) ho
      rw [hm] at typed
      exact typed.lt
  have unnamed : (f.withAssertions loci).block? target = some
      { t.redirect (f.forth (f.edgesToSplit loci) target) (f.back (f.edgesToSplit loci) target) with
        stmts := insertStmts (f.insertionsFor loci) target t.stmts } := by
    rw [block?_withAssertions_old (List.getElem?_eq_some_iff.mp ht).1, ht]
    rfl
  have inside := arrives'.step leave'.asserted (.edge leave' moved)
  obtain ⟨env, passed, kept⟩ := inside.pass_slot hf facts usesAsserted .start unnamed rfl
    (fun _ behind => by cases behind) merged fun l hl place =>
      facts.holds_at_head hf uses entered reaches leave ht hl place
  exact ⟨_, passed, rfl, Nat.zero_add _, kept⟩

/-- The execution of the function with assertions runs a statement, and then the assertions behind
    it. -/
theorem Follows.stmt_step {block : BlockId} {index : Nat} {env env' : Env} {stmt : Stmt}
    (follows : f.Follows loci ⟨block, index, env⟩ y)
    (arrives : (f.asserted loci).Arrives config y) (reaches : f.Reaches config ⟨block, index, env⟩)
    (asserted : f.Asserted ⟨block, index, env⟩) (hstmt : f.stmtAt? block index = some stmt)
    (run : f.Runs config env stmt env') :
    ∃ y', (f.asserted loci).Arrives config y' ∧ f.Follows loci ⟨block, index + 1, env'⟩ y' := by
  have usesAsserted := usesDominated_asserted hf uses facts entered
  have valid := valid_asserted hf facts
  obtain ⟨block', index', before⟩ := y
  obtain ⟨here, place, agree⟩ := follows
  dsimp only at here place agree
  subst block' index'
  have moved := @stmtAt?_asserted f loci _ _ _ hstmt
  have consistent := arrives.reaches.consistent valid usesAsserted
  have known : ∀ n ∈ stmt.usedNames, n < f.nameCount := fun n hn => hf.stmt_usedNames_lt hstmt hn
  have read : ∀ n ∈ stmt.usedNames, before (f.readAs loci
      ⟨block, .before (newIndex (f.insertionsFor loci) block index)⟩ n) = env n := by
    intro n hn
    refine (consistent.readAs hf facts usesAsserted (usesAsserted.stmt _ _ _ _ moved ?_)).trans
      (agree n (known n hn))
    rw [Stmt.usedNames_rename]
    exact List.mem_map_of_mem hn
  obtain ⟨after, run', agree'⟩ := (renames_readAs hf facts _).runs
    (fun n dest =>
      renames_renameUses.type n (hf.def_lt (mem_innerDefs_stmt.mpr ⟨stmt, hstmt, dest⟩)))
    known read run
  -- an assertion of the old function holds of the same values
  have holds : (f.asserted loci).Asserted
      ⟨block, newIndex (f.insertionsFor loci) block index, before⟩ := by
    intro dest subject predicate same v hv
    rw [moved] at same
    cases stmt with
    | store | nop => cases same
    | assign dest' rhs =>
        cases rhs with
        | copy | unary | binary | compare | select | addressOf | load | call => cases same
        | assert subject' predicate' =>
            cases same
            have value := (read subject' (List.mem_cons_self ..)).symm.trans hv
            refine (asserted _ _ _ hstmt v value).rename fun op m limit => read m ?_
            simp [Stmt.usedNames, Rhs.usedNames, Rhs.operands, limit, Operand.name?]
  obtain ⟨b, hb, hi⟩ := stmtAt?_eq_some.mp hstmt
  have unnamed : (f.withAssertions loci).block? block = some
      { b.redirect (f.forth (f.edgesToSplit loci) block) (f.back (f.edgesToSplit loci) block) with
        stmts := insertStmts (f.insertionsFor loci) block b.stmts } := by
    rw [block?_withAssertions_old (List.getElem?_eq_some_iff.mp hb).1, hb]
    rfl
  obtain ⟨env'', passed, kept⟩ := (arrives.step holds (.stmt moved run')).pass_slot hf facts
    usesAsserted (.after index) unnamed rfl
    (fun _ behind => by cases behind; exact (List.getElem?_eq_some_iff.mp hi).1) (agree' _ agree)
    fun l hl place => by
      have holds := facts.holds l hl
      generalize l.locus = locus at place holds
      cases place
      exact holds env' (.after (reaches.step (.stmt hstmt run)))
  refine ⟨_, passed, rfl, ?_, kept⟩
  simp only [slotIndex, newIndex, offset]
  omega

omit uses entered facts hf in
/-- Executions start with the same values: new names have none. -/
theorem initial_asserted {env : Env} (h : f.Initial config env) :
    (f.asserted loci).Initial config env := by
  intro n
  have given := h n
  by_cases known : n < f.nameCount
  · have names : (f.asserted loci).names[n]? = f.names[n]? := List.getElem?_append_left known
    have type : (f.asserted loci).runType config n = f.runType config n := by
      rw [runType, runType, asserted, typeOf_renameUses, typeOf_withAssertions_old known]
    rw [names, type]
    exact given
  · rw [List.getElem?_eq_none (Nat.le_of_not_lt known)] at given
    have new : (f.asserted loci).names[n]? =
        ((f.placements loci).map fun p => ⟨f.typeOf p.1.name, .defined⟩)[n - f.nameCount]? :=
      List.getElem?_append_right (Nat.le_of_not_lt known)
    rw [new, List.getElem?_map]
    cases (f.placements loci)[n - f.nameCount]? with
    | none => exact given
    | some place => exact given

omit uses facts in
/-- No assertion stands at the start of the function. -/
theorem Initial.follows {env : Env} (h : f.Initial config env) :
    ∃ y, (f.asserted loci).Arrives config y ∧ f.Follows loci ⟨f.entry, 0, env⟩ y := by
  have exists_ : f.entry < f.blockCount := List.length_pos_iff.mpr hf.nonempty
  have none : slotStmts (f.insertionsFor loci) f.entry .start = [] := by
    refine List.eq_nil_iff_forall_not_mem.mpr fun stmt hstmt => ?_
    obtain ⟨i, l, -, place, -⟩ := of_mem_slotStmts hstmt
    generalize start : f.entry = block at place exists_
    generalize l.locus = locus at place
    cases place with
    | split he hi => exact absurd exists_ (Nat.not_lt.mpr (Nat.le_add_right _ _))
    | head he single => exact entered (start ▸ single)
  refine ⟨_, .start (initial_asserted h), rfl, ?_, fun _ _ => rfl⟩
  rw [newIndex, none]
  rfl

/-- Every execution in which the function's own assertions hold is followed by one of the function
    with assertions, in which all assertions hold. -/
theorem Reaches.follows (truthful : ∀ x, f.Reaches config x → f.Asserted x)
    (reaches : f.Reaches config x) :
    ∃ y, (f.asserted loci).Arrives config y ∧ f.Follows loci x y := by
  induction reaches with
  | start init => exact init.follows hf entered
  | step before step ih =>
      obtain ⟨y, arrives, follows⟩ := ih
      cases step with
      | stmt hstmt run =>
          exact follows.stmt_step hf uses facts entered arrives before (truthful _ before) hstmt run
      | edge leave ht => exact follows.edge_step hf uses facts entered arrives before leave ht

end Steps

end Function

end RangeFlow
