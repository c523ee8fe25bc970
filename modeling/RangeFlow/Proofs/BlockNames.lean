import RangeFlow.Assertion.Liveness
import RangeFlow.Proofs.BitSets
import RangeFlow.Proofs.DominatorTree
import RangeFlow.Proofs.Predecessors
import RangeFlow.Proofs.Typing

/-! # What blocks do with names

Liveness starts from sets of names: those a block reads before it defines them, those it defines,
and those that merges of other blocks read at its end. In a valid function no name is refused, and
the sets hold exactly these names.
-/

namespace RangeFlow

namespace BitSet

/-- The set has the capacity, and exactly the members that are described. -/
structure Holds (s : BitSet) (capacity : Nat) (members : Nat → Prop) : Prop where
  capacity : s.capacity = capacity
  contains : ∀ n, s.contains n = true ↔ members n

variable {s t : BitSet} {c : Nat} {P Q : Nat → Prop}

theorem Holds.congr (h : s.Holds c P) (same : ∀ n, P n ↔ Q n) : s.Holds c Q :=
  ⟨h.capacity, fun n => (h.contains n).trans (same n)⟩

theorem holds_empty : (empty c).Holds c fun _ => False :=
  ⟨rfl, fun n => by rw [← mem_members, members_empty]; simp⟩

/-- Two sets with the same members and capacity are one. -/
theorem Holds.unique (hs : s.Holds c P) (ht : t.Holds c P) : s = t := by
  rw [← members_inj (hs.capacity.trans ht.capacity.symm)]
  ext n
  rw [mem_members, mem_members, hs.contains, ht.contains]

theorem Holds.insert? (h : s.Holds c P) {i : Nat} (inside : i < c) :
    ∃ added t, s.insert? i = some (added, t) ∧ t.Holds c fun n => P n ∨ n = i := by
  obtain ⟨t, found, capacity, members⟩ := insert?_eq (s := s) (h.capacity ▸ inside)
  refine ⟨_, t, found, capacity.trans h.capacity, fun n => ?_⟩
  rw [← mem_members, members, Finset.mem_insert, mem_members, h.contains, or_comm]

theorem Holds.insertAll? (h : s.Holds c P) {l : List Nat} (inside : ∀ i ∈ l, i < c) :
    ∃ t, s.insertAll? l = some t ∧ t.Holds c fun n => P n ∨ n ∈ l := by
  induction l generalizing s P with
  | nil => exact ⟨s, rfl, h.congr fun n => by simp⟩
  | cons i l ih =>
      obtain ⟨here, rest⟩ := List.forall_mem_cons.mp inside
      obtain ⟨_, next, found, hnext⟩ := h.insert? here
      obtain ⟨t, hrest, ht⟩ := ih hnext rest
      refine ⟨t, ?_, ht.congr fun n => by rw [List.mem_cons, or_assoc]⟩
      rw [BitSet.insertAll?, List.foldlM_cons, found]
      exact hrest

theorem Holds.union? (hs : s.Holds c P) (ht : t.Holds c Q) :
    ∃ changed r, s.union? t = some (changed, r) ∧ r.Holds c fun n => P n ∨ Q n := by
  obtain ⟨r, found, capacity, members⟩ := union?_eq (ht.capacity.trans hs.capacity.symm)
  refine ⟨_, r, found, capacity.trans hs.capacity, fun n => ?_⟩
  rw [← mem_members, members, Finset.mem_union, mem_members, mem_members, hs.contains, ht.contains]

theorem Holds.diff? (hs : s.Holds c P) (ht : t.Holds c Q) :
    ∃ changed r, s.diff? t = some (changed, r) ∧ r.Holds c fun n => P n ∧ ¬ Q n := by
  obtain ⟨r, found, capacity, members⟩ := diff?_eq (ht.capacity.trans hs.capacity.symm)
  refine ⟨_, r, found, capacity.trans hs.capacity, fun n => ?_⟩
  rw [← mem_members, members, Finset.mem_sdiff, mem_members, mem_members, hs.contains, ht.contains]

/-- There are as many sets as rows, each of them for as many numbers as columns, and they hold
    exactly what is described. -/
structure Rows (sets : Array BitSet) (rows columns : Nat) (members : Nat → Nat → Prop) : Prop where
  size : sets.size = rows
  holds : ∀ (row : Nat) (s : BitSet), sets[row]? = some s → s.Holds columns (members row)

section Rows

variable {sets : Array BitSet} {rows columns : Nat} {M M' : Nat → Nat → Prop}

theorem Rows.congr (h : Rows sets rows columns M) (same : ∀ r n, M r n ↔ M' r n) :
    Rows sets rows columns M' :=
  ⟨h.size, fun r s hs => (h.holds r s hs).congr (same r)⟩

theorem rows_empty : Rows (.replicate rows (empty columns)) rows columns fun _ _ => False := by
  refine ⟨by simp, fun r s hs => ?_⟩
  rw [Array.getElem?_replicate] at hs
  split at hs
  · cases hs
    exact holds_empty
  · cases hs

/-- Where there is a row, there is a set. -/
theorem Rows.get (h : Rows sets rows columns M) {r : Nat} (inside : r < rows) :
    ∃ s, sets[r]? = some s ∧ s.Holds columns (M r) := by
  have found := Array.getElem?_eq_getElem (h.size ▸ inside)
  exact ⟨_, found, h.holds r _ found⟩

/-- A row is replaced. -/
theorem Rows.set (h : Rows sets rows columns M) {r : Nat} {s : BitSet} {P : Nat → Prop}
    (holds : s.Holds columns P) :
    Rows (sets.setIfInBounds r s) rows columns fun q n => if q = r then P n else M q n := by
  refine ⟨by simp [h.size], fun q t ht => ?_⟩
  rw [Array.getElem?_setIfInBounds] at ht
  split at ht
  · next same =>
      split at ht
      · cases ht
        exact holds.congr fun n => by simp [same]
      · cases ht
  · next other => exact (h.holds q t ht).congr fun n => by simp [Ne.symm other]

/-- Two lists of sets that hold the same are one. -/
theorem Rows.unique {others : Array BitSet} (h : Rows sets rows columns M)
    (h' : Rows others rows columns M) : sets = others := by
  refine Array.ext (h.size.trans h'.size.symm) fun r inside inside' => ?_
  exact (h.holds r _ (Array.getElem?_eq_getElem inside)).unique
    (h'.holds r _ (Array.getElem?_eq_getElem inside'))

end Rows

end BitSet

/-- Do the statements read the name before one of them defines it? After the last one, what comes
    then decides. -/
def ReadsFirst (n : NameId) (last : Prop) : List Stmt → Prop
  | [] => last
  | stmt :: rest => n ∈ stmt.usedNames ∨ (stmt.dest? ≠ some n ∧ ReadsFirst n last rest)

/-- What comes after the last statement counts if no statement defines the name. -/
theorem readsFirst_or {n : NameId} {p q : Prop} {stmts : List Stmt} :
    ReadsFirst n (p ∨ q) stmts ↔
      ReadsFirst n p stmts ∨ ((∀ stmt ∈ stmts, stmt.dest? ≠ some n) ∧ q) := by
  induction stmts with
  | nil => simp [ReadsFirst]
  | cons stmt rest ih =>
      rw [ReadsFirst, ReadsFirst, ih, List.forall_mem_cons]
      tauto

namespace BlockNames

/-- The sets are for so many names, and hold exactly those that are described. -/
structure Holds (sets : BlockNames) (nameCount : Nat) (reads defs : NameId → Prop) : Prop where
  reads : sets.reads.Holds nameCount reads
  defs : sets.defs.Holds nameCount defs

variable {sets : BlockNames} {c : Nat} {reads defs : NameId → Prop}

theorem Holds.congr {reads' defs' : NameId → Prop} (h : sets.Holds c reads defs)
    (sameReads : ∀ n, reads n ↔ reads' n) (sameDefs : ∀ n, defs n ↔ defs' n) :
    sets.Holds c reads' defs' :=
  ⟨h.reads.congr sameReads, h.defs.congr sameDefs⟩

theorem Holds.noteReads (h : sets.Holds c reads defs) {names : List NameId}
    (inside : ∀ n ∈ names, n < c) :
    ∃ next, sets.noteReads names = some next ∧
      next.Holds c (fun n => reads n ∨ (n ∈ names ∧ ¬ defs n)) defs := by
  have open_ : ∀ n, n ∈ names.filter (fun n => !sets.defs.contains n) ↔ n ∈ names ∧ ¬ defs n := by
    intro n
    rw [List.mem_filter, Bool.not_eq_true', ← Bool.not_eq_true, h.defs.contains]
  obtain ⟨next, found, hnext⟩ := h.reads.insertAll? fun n hn => inside n ((open_ n).mp hn).1
  refine ⟨{ sets with reads := next }, ?_, hnext.congr fun n => by rw [open_], h.defs⟩
  rw [BlockNames.noteReads, found]
  rfl

theorem Holds.noteStmt (h : sets.Holds c reads defs) {stmt : Stmt}
    (used : ∀ n ∈ stmt.usedNames, n < c) (set : ∀ n, stmt.dest? = some n → n < c) :
    ∃ next, sets.noteStmt stmt = some next ∧
      next.Holds c (fun n => reads n ∨ (n ∈ stmt.usedNames ∧ ¬ defs n))
        fun n => defs n ∨ stmt.dest? = some n := by
  obtain ⟨middle, found, hmiddle⟩ := h.noteReads used
  obtain ⟨next, hdefs, hnext⟩ := hmiddle.defs.insertAll? (l := stmt.dest?.toList) fun n hn =>
    set n (Option.mem_toList.mp hn)
  refine ⟨{ middle with defs := next }, ?_, hmiddle.reads, hnext.congr fun n => ?_⟩
  · rw [BlockNames.noteStmt, found]
    simp only [Option.bind_eq_bind, Option.bind_some, hdefs]
    rfl
  · rw [Option.mem_toList]

/-- The statements and the terminator read what they read first, apart from what is defined before
    them. -/
theorem Holds.noteStmts (h : sets.Holds c reads defs) {stmts : List Stmt} {t : Terminator}
    (used : ∀ stmt ∈ stmts, ∀ n ∈ stmt.usedNames, n < c)
    (set : ∀ stmt ∈ stmts, ∀ n, stmt.dest? = some n → n < c) (last : ∀ n ∈ t.usedNames, n < c) :
    ∃ next, (stmts.foldlM BlockNames.noteStmt sets >>= fun s => s.noteReads t.usedNames) =
        some next ∧
      next.Holds c (fun n => reads n ∨ (¬ defs n ∧ ReadsFirst n (n ∈ t.usedNames) stmts))
        fun n => defs n ∨ ∃ stmt ∈ stmts, stmt.dest? = some n := by
  induction stmts generalizing sets reads defs with
  | nil =>
      obtain ⟨next, found, hnext⟩ := h.noteReads last
      exact ⟨next, found, hnext.congr (fun n => or_congr_right and_comm) fun n => by simp⟩
  | cons stmt rest ih =>
      obtain ⟨usedHere, usedLater⟩ := List.forall_mem_cons.mp used
      obtain ⟨setHere, setLater⟩ := List.forall_mem_cons.mp set
      obtain ⟨middle, found, hmiddle⟩ := h.noteStmt usedHere setHere
      obtain ⟨next, run, hnext⟩ := ih hmiddle usedLater setLater
      refine ⟨next, ?_, hnext.congr (fun n => ?_) fun n => ?_⟩
      · rw [List.foldlM_cons, found]
        exact run
      · rw [ReadsFirst]
        by_cases defined : defs n
        · simp [defined]
        · simp [defined, or_assoc]
      · simp only [or_assoc, List.mem_cons, exists_eq_or_imp]

/-- The sets of a block hold what it reads before it defines it and what it defines. -/
theorem ofBlock_holds {block : Block} (phis : ∀ phi ∈ block.phis, phi.dest < c)
    (used : ∀ stmt ∈ block.stmts, ∀ n ∈ stmt.usedNames, n < c)
    (set : ∀ stmt ∈ block.stmts, ∀ n, stmt.dest? = some n → n < c)
    (last : ∀ n ∈ block.terminator.usedNames, n < c) :
    ∃ sets, ofBlock c block = some sets ∧
      sets.Holds c
        (fun n => (∀ phi ∈ block.phis, phi.dest ≠ n) ∧
          ReadsFirst n (n ∈ block.terminator.usedNames) block.stmts)
        (· ∈ block.defs) := by
  have inside : ∀ n ∈ block.phis.map Phi.dest, n < c := by
    simpa using phis
  obtain ⟨merged, found, hmerged⟩ := BitSet.holds_empty.insertAll? inside
  have start : BlockNames.Holds ⟨.empty c, merged⟩ c (fun _ => False)
      (∃ phi ∈ block.phis, phi.dest = ·) :=
    ⟨BitSet.holds_empty, hmerged.congr fun n => by simp⟩
  obtain ⟨sets, run, hsets⟩ := start.noteStmts used set last
  refine ⟨sets, ?_, hsets.congr (fun n => by simp) fun n => ?_⟩
  · rw [ofBlock, found]
    exact run
  · rw [Block.defs, List.mem_append, List.mem_map, List.mem_filterMap]

end BlockNames

namespace Function

/-- The block reads the name before it defines it. -/
def ReadsInside (f : Function) (b : BlockId) (n : NameId) : Prop :=
  ∃ block, f.block? b = some block ∧ (∀ phi ∈ block.phis, phi.dest ≠ n) ∧
    ReadsFirst n (n ∈ block.terminator.usedNames) block.stmts

/-- A merge or a statement of the block defines the name. -/
def DefinesInside (f : Function) (b : BlockId) (n : NameId) : Prop :=
  ∃ block, f.block? b = some block ∧ n ∈ block.defs

/-- A merge of the second block takes the name if control comes from the first one. -/
def MergeReads (f : Function) (src dst : BlockId) (n : NameId) : Prop :=
  ∃ block phi, f.block? dst = some block ∧ phi ∈ block.phis ∧
    phi.operandFrom? src = some (.name n)

/-- Control can go from the block to one where a merge takes the name. -/
def Carries (f : Function) (b : BlockId) (n : NameId) : Prop :=
  ∃ t, f.Feeds b t ∧ f.MergeReads b t n

variable {f : Function} {b t : BlockId} {n : NameId}

/-- In a valid function a merge has one operand for each predecessor. -/
theorem Valid.operandFrom?_eq_some (hf : f.Valid) {block : Block} {phi : Phi} {value : Operand}
    (hblock : f.block? t = some block) (hphi : phi ∈ block.phis) :
    phi.operandFrom? b = some value ↔ ⟨b, value⟩ ∈ phi.operands := by
  have nodup : (phi.operands.map PhiOperand.predecessor).Nodup :=
    (hf.perm_predecessors hblock hphi).nodup_iff.mpr (f.nodup_predecessors t)
  rw [Phi.operandFrom?, Option.map_eq_some_iff]
  constructor
  · rintro ⟨o, found, rfl⟩
    have here : o.predecessor = b := by simpa using List.find?_some found
    exact here ▸ List.mem_of_find?_eq_some found
  · intro member
    have some_ : (phi.operands.find? (·.predecessor == b)).isSome := by
      rw [List.find?_isSome]
      exact ⟨_, member, by simp⟩
    obtain ⟨o, found⟩ := Option.isSome_iff_exists.mp some_
    have here : o.predecessor = b := by simpa using List.find?_some found
    have same := List.inj_on_of_nodup_map nodup (List.mem_of_find?_eq_some found) member here
    exact ⟨o, found, same ▸ rfl⟩

/-- The names listed with a block as read by merges are those read at its end. -/
theorem Valid.mem_carried (hf : f.Valid) :
    (b, n) ∈ f.blocks.flatMap Block.carried ↔ f.Carries b n := by
  simp only [Block.carried, List.mem_flatMap, List.mem_filterMap, Option.map_eq_some_iff,
    Operand.name?_eq_some, Prod.mk.injEq]
  constructor
  · rintro ⟨block, hblock, phi, hphi, ⟨p, value⟩, ho, m, rfl, rfl, rfl⟩
    obtain ⟨t, inside, rfl⟩ := List.getElem_of_mem hblock
    have here : f.block? t = some f.blocks[t] := List.getElem?_eq_getElem inside
    obtain ⟨-, -, operands, -⟩ := checkPhi_eq_ok.mp (hf.phis t _ here phi hphi)
    obtain ⟨-, pred, -⟩ := operands _ ho
    refine ⟨t, (mem_predecessors inside).mp pred, f.blocks[t], phi, here, hphi, ?_⟩
    exact (hf.operandFrom?_eq_some here hphi).mpr ho
  · rintro ⟨t, -, block, phi, hblock, hphi, hop⟩
    exact ⟨block, List.mem_of_getElem? hblock, phi, hphi, _,
      (hf.operandFrom?_eq_some hblock hphi).mp hop, n, rfl, rfl, rfl⟩

theorem Valid.carries_lt (hf : f.Valid) (h : f.Carries b n) : n < f.nameCount := by
  obtain ⟨t, -, block, phi, hblock, hphi, hop⟩ := h
  obtain ⟨-, -, operands, -⟩ := checkPhi_eq_ok.mp (hf.phis t block hblock phi hphi)
  have typed := (operands _ ((hf.operandFrom?_eq_some hblock hphi).mp hop)).2.2
  exact typed.lt

/-- Noting a name at a block adds it to the set of this block alone. -/
theorem noteCarried_rows {sets : Array BitSet} {rows columns : Nat} {P : BlockId → NameId → Prop}
    {read : BlockId × NameId} (h : BitSet.Rows sets rows columns P) (inside : read.2 < columns) :
    ∃ next, noteCarried sets read = some next ∧
      BitSet.Rows next rows columns fun b n => P b n ∨ (b, n) = read := by
  obtain ⟨p, m⟩ := read
  unfold noteCarried
  cases found : sets[p]? with
  | none =>
      refine ⟨sets, rfl, h.size, fun b s hs => (h.holds b s hs).congr fun n => ?_⟩
      have other : b ≠ p := by
        rintro rfl
        simp [found] at hs
      simp [other]
  | some old =>
      obtain ⟨_, new, hnew, holds⟩ := (h.holds p old found).insert? inside
      refine ⟨sets.setIfInBounds p new, by simp [hnew], ?_⟩
      refine (h.set holds).congr fun b n => ?_
      by_cases same : b = p <;> simp [same]

theorem foldlM_noteCarried_rows {sets : Array BitSet} {rows columns : Nat}
    {P : BlockId → NameId → Prop} {reads : List (BlockId × NameId)}
    (h : BitSet.Rows sets rows columns P) (inside : ∀ read ∈ reads, read.2 < columns) :
    ∃ next, reads.foldlM noteCarried sets = some next ∧
      BitSet.Rows next rows columns fun b n => P b n ∨ (b, n) ∈ reads := by
  induction reads generalizing sets P with
  | nil => exact ⟨sets, rfl, h.congr fun b n => by simp⟩
  | cons read rest ih =>
      obtain ⟨here, later⟩ := List.forall_mem_cons.mp inside
      obtain ⟨middle, found, hmiddle⟩ := noteCarried_rows h here
      obtain ⟨next, run, hnext⟩ := ih hmiddle later
      refine ⟨next, ?_, hnext.congr fun b n => by rw [List.mem_cons, or_assoc]⟩
      rw [List.foldlM_cons, found]
      exact run

/-- The sets of names that are read at the ends of blocks hold what merges take there. -/
theorem Valid.carriedNames_rows (hf : f.Valid) :
    ∃ sets, f.carriedNames = some sets ∧
      BitSet.Rows sets f.blockCount f.nameCount f.Carries := by
  have inside : ∀ read ∈ f.blocks.flatMap Block.carried, read.2 < f.nameCount :=
    fun ⟨_, _⟩ member => hf.carries_lt (hf.mem_carried.mp member)
  obtain ⟨sets, found, rows⟩ := foldlM_noteCarried_rows BitSet.rows_empty inside
  refine ⟨sets, found, rows.congr fun b n => ?_⟩
  rw [false_or, hf.mem_carried]

/-- The names of a block of a valid function exist, and its sets hold what it does with them. -/
theorem Valid.ofBlock_holds (hf : f.Valid) {block : Block} (hb : f.block? b = some block) :
    ∃ sets, BlockNames.ofBlock f.nameCount block = some sets ∧
      sets.Holds f.nameCount (f.ReadsInside b) (f.DefinesInside b) := by
  have stmts : ∀ stmt ∈ block.stmts, ∃ i, f.stmtAt? b i = some stmt := by
    intro stmt member
    obtain ⟨i, hi⟩ := List.getElem?_of_mem member
    exact ⟨i, stmtAt?_eq_some.mpr ⟨block, hb, hi⟩⟩
  have defined : ∀ n ∈ block.defs, n < f.nameCount := fun n hn =>
    hf.defsExist n (List.mem_flatMap.mpr ⟨block, List.mem_of_getElem? hb, hn⟩)
  have phis : ∀ phi ∈ block.phis, phi.dest < f.nameCount := fun phi hphi =>
    defined _ (List.mem_append_left _ (List.mem_map_of_mem hphi))
  have used : ∀ stmt ∈ block.stmts, ∀ n ∈ stmt.usedNames, n < f.nameCount := by
    intro stmt hstmt n hn
    obtain ⟨i, hi⟩ := stmts stmt hstmt
    exact hf.stmt_usedNames_lt hi hn
  have set : ∀ stmt ∈ block.stmts, ∀ n, stmt.dest? = some n → n < f.nameCount :=
    fun stmt hstmt n hn => defined n
      (List.mem_append_right _ (List.mem_filterMap.mpr ⟨stmt, hstmt, hn⟩))
  obtain ⟨sets, found, holds⟩ := BlockNames.ofBlock_holds phis used set
    fun n hn => hf.terminator_usedNames_lt hb hn
  refine ⟨sets, found, holds.congr (fun n => ?_) fun n => ?_⟩
  · simp [ReadsInside, hb]
  · simp [DefinesInside, hb]

end Function

end RangeFlow
