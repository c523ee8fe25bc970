import Mathlib.Data.List.Count
import Mathlib.Data.List.Induction
import RangeFlow.Proofs.FilledTables
import RangeFlow.Proofs.Places
import RangeFlow.Proofs.Wrapping

/-! # Tables mirror the blocks

The tables of a function say what its blocks say. There is one edge for each pair of a block and a
target of it that exists, with a flag for every way to take it; each number of an edge stands in one
row of each table of edges; and a name is used as often as it is an operand. It follows that a merge
that passes validation names each predecessor of its block once.
-/

namespace RangeFlow

namespace Block

variable {b : Block} {target : BlockId} {flags mention : EdgeFlags}

/-- A flag of an outgoing target is that of one of its mentions. -/
theorem exists_mention {flag : EdgeFlags → Bool}
    (either : ∀ x y : EdgeFlags, flag (x.or y) = (flag x || flag y))
    (member : (target, flags) ∈ b.outgoing) (set : flag flags = true) :
    ∃ mention, (target, mention) ∈ b.flaggedTargets ∧ flag mention = true := by
  have all : ∀ t ∈ b.flaggedTargets.foldl
      (upsert Prod.fst Prod.fst (fun t new => (t.1, t.2.or new.2)) id) [],
      flag t.2 = true → ∃ mention, (t.1, mention) ∈ b.flaggedTargets ∧ flag mention = true := by
    refine forall_mem_foldl_upsert (by simp) ?_ ?_
    · -- a flag of two that are merged is a flag of one of them
      intro t old new member same set
      rcases Bool.or_eq_true_iff.mp (either t.2 new.2 ▸ set) with set | set
      · exact old set
      · exact ⟨new.2, same ▸ member, set⟩
    · exact fun new member set => ⟨new.2, member, set⟩
  exact all _ member set

/-- What a block mentions a target for. -/
theorem mem_flaggedTargets (member : (target, mention) ∈ b.flaggedTargets) :
    (∃ cond onFalse, b.terminator = .branch cond target onFalse ∧ mention = { onTrue := true }) ∨
    (∃ cond onTrue, b.terminator = .branch cond onTrue target ∧ mention = { onFalse := true }) ∨
    (target ∈ b.abnormal ∧ mention = { abnormal := true }) ∨ mention = {} := by
  rcases List.mem_append.mp member with normal | raised
  · cases ends : b.terminator with
    | branch cond onTrue onFalse =>
        simp only [ends, List.mem_cons, Prod.mk.injEq, List.not_mem_nil, or_false] at normal
        rcases normal with ⟨rfl, rfl⟩ | ⟨rfl, rfl⟩
        · exact .inl ⟨_, _, rfl, rfl⟩
        · exact .inr (.inl ⟨_, _, rfl, rfl⟩)
    | _ =>
        rw [ends] at normal
        obtain ⟨_, -, same⟩ := List.mem_map.mp normal
        exact .inr (.inr (.inr (Prod.mk.inj same).2.symm))
  · obtain ⟨_, listed, same⟩ := List.mem_map.mp raised
    obtain ⟨rfl, rfl⟩ := Prod.mk.inj same
    exact .inr (.inr (.inl ⟨listed, rfl⟩))

theorem onTrue_iff (member : (target, flags) ∈ b.outgoing) :
    flags.onTrue = true ↔ ∃ cond onFalse, b.terminator = .branch cond target onFalse := by
  constructor
  · intro set
    obtain ⟨mention, here, set⟩ := exists_mention (fun _ _ => rfl) member set
    rcases mem_flaggedTargets here with ⟨cond, onFalse, ends, -⟩ | ⟨_, _, _, rfl⟩ | ⟨_, rfl⟩ | rfl
    · exact ⟨cond, onFalse, ends⟩
    all_goals cases set
  · rintro ⟨_, _, ends⟩
    exact onTrue_of_mem member ends

theorem onFalse_iff (member : (target, flags) ∈ b.outgoing) :
    flags.onFalse = true ↔ ∃ cond onTrue, b.terminator = .branch cond onTrue target := by
  constructor
  · intro set
    obtain ⟨mention, here, set⟩ := exists_mention (fun _ _ => rfl) member set
    rcases mem_flaggedTargets here with ⟨_, _, _, rfl⟩ | ⟨cond, onTrue, ends, -⟩ | ⟨_, rfl⟩ | rfl
    · cases set
    · exact ⟨cond, onTrue, ends⟩
    all_goals cases set
  · rintro ⟨_, _, ends⟩
    exact onFalse_of_mem member ends

theorem abnormal_iff (member : (target, flags) ∈ b.outgoing) :
    flags.abnormal = true ↔ target ∈ b.abnormal := by
  constructor
  · intro set
    obtain ⟨mention, here, set⟩ := exists_mention (fun _ _ => rfl) member set
    rcases mem_flaggedTargets here with ⟨_, _, _, rfl⟩ | ⟨_, _, _, rfl⟩ | ⟨raised, -⟩ | rfl
    · cases set
    · cases set
    · exact raised
    · cases set
  · exact abnormal_of_mem member

end Block

/-! ## Operands -/

/-- The places of a right-hand side where an operand stands, that of the subject of an assertion
    among them. -/
def Rhs.places (rhs : Rhs) : List Operand :=
  match rhs with
  | assert subject _ => .name subject :: rhs.operands
  | _ => rhs.operands

/-- The places of a statement where an operand stands. -/
def Stmt.places : Stmt → List Operand
  | assign _ rhs => rhs.places
  | store address value => [address, value]
  | nop => []

theorem Rhs.usedNames_eq (rhs : Rhs) : rhs.usedNames = rhs.places.filterMap Operand.name? := by
  cases rhs <;> rfl

theorem Stmt.usedNames_eq (stmt : Stmt) : stmt.usedNames = stmt.places.filterMap Operand.name? := by
  cases stmt with
  | assign dest rhs => exact rhs.usedNames_eq
  | _ => rfl

/-- The block that holds the use. -/
def UseSite.block : UseSite → BlockId
  | phi block _ _ => block
  | stmt block _ => block
  | terminator block => block

/-- How often a name is an operand at a place of a function. -/
def Function.occurrences (f : Function) (name : NameId) : UseSite → Nat
  | .phi block index predecessor => (f.phiAt? block index).elim 0 fun phi =>
      phi.operands.count ⟨predecessor, .name name⟩
  | .stmt block index => (f.stmtAt? block index).elim 0 fun stmt =>
      stmt.places.count (.name name)
  | .terminator block => (f.block? block).elim 0 fun b =>
      b.terminator.operands.count (.name name)

section Count

variable {α β : Type} [BEq β] [LawfulBEq β]

/-- What only the element at one position contributes is counted there. -/
theorem count_flatMap_zipIdx {l : List α} {part : α × Nat → List β} {x : β} {k : Nat}
    (only : ∀ a i, x ∈ part (a, i) → i = k) :
    (l.zipIdx.flatMap part).count x = (l[k]?).elim 0 fun a => (part (a, k)).count x := by
  -- from the end, so that the other elements keep their positions
  induction l using List.reverseRecOn with
  | nil => rfl
  | append_singleton l a ih =>
      have last : ([a].zipIdx l.length).flatMap part = part (a, l.length) := by simp
      rw [List.zipIdx_append, List.flatMap_append, List.count_append, ih, Nat.zero_add, last]
      by_cases here : l.length = k
      · subst here
        simp
      · have none : (part (a, l.length)).count x = 0 :=
          List.count_eq_zero.mpr fun member => here (only a _ member)
        rw [none, Nat.add_zero]
        rcases Nat.lt_or_gt_of_ne here with beyond | before
        · rw [List.getElem?_eq_none (by omega), List.getElem?_eq_none (by simp; omega)]
        · rw [List.getElem?_append_left before]

theorem count_map_snd_filter (uses : List (NameId × β)) (n : NameId) (site : β) :
    ((uses.filter (·.1 == n)).map Prod.snd).count site = uses.count (n, site) := by
  rw [List.count, List.countP_map, List.countP_filter, List.count]
  refine List.countP_congr fun use _ => ?_
  rw [Bool.and_eq_true, and_comm, beq_iff_eq, Function.comp, beq_iff_eq, beq_iff_eq, Prod.ext_iff]

end Count

/-- The names among some operands, each noted for one place. -/
theorem count_map_name? (operands : List Operand) (site : UseSite) (n : NameId) :
    ((operands.filterMap Operand.name?).map (·, site)).count (n, site) =
      operands.count (.name n) := by
  have pair : Function.Injective fun n : NameId => (n, site) := fun _ _ same =>
    (Prod.mk.inj same).1
  rw [List.count_map_of_injective _ _ pair, List.count_filterMap, List.count]
  refine List.countP_congr fun o _ => ?_
  rw [beq_iff_eq, beq_iff_eq, Operand.name?_eq_some]

/-- The names among the operands of a merge, each noted with where it comes from. -/
theorem count_filterMap_phi (operands : List PhiOperand) (id : BlockId) (index : Nat)
    (predecessor : BlockId) (n : NameId) :
    (operands.filterMap fun o => o.value.name?.map (·, UseSite.phi id index o.predecessor)).count
        (n, .phi id index predecessor) = operands.count ⟨predecessor, .name n⟩ := by
  rw [List.count_filterMap, List.count]
  refine List.countP_congr fun o _ => ?_
  obtain ⟨source, value⟩ := o
  cases value <;> simp [Operand.name?, and_comm]

namespace Block

variable {b : Block} {id : BlockId} {n : NameId}

theorem block_of_mem_useSites {site : UseSite} (member : (n, site) ∈ b.useSites id) :
    site.block = id := by
  simp only [useSites, List.mem_append, List.mem_flatMap, List.mem_filterMap, List.mem_map,
    Option.map_eq_some_iff] at member
  rcases member with (⟨_, _, _, _, _, _, same⟩ | ⟨_, _, _, _, same⟩) | ⟨_, _, same⟩
  all_goals
    cases same
    rfl

theorem count_useSites_phi (index : Nat) (predecessor : BlockId) :
    (b.useSites id).count (n, .phi id index predecessor) =
      (b.phis[index]?).elim 0 fun phi => phi.operands.count ⟨predecessor, .name n⟩ := by
  rw [useSites, List.count_append, List.count_append,
    count_flatMap_zipIdx (k := index) (by simp +contextual), List.count_eq_zero.mpr (by simp),
    List.count_eq_zero.mpr (by simp), Nat.add_zero]
  congr 1
  funext phi
  exact count_filterMap_phi phi.operands id index predecessor n

theorem count_useSites_stmt (index : Nat) :
    (b.useSites id).count (n, .stmt id index) =
      (b.stmts[index]?).elim 0 fun stmt => stmt.places.count (.name n) := by
  rw [useSites, List.count_append, List.count_append, List.count_eq_zero.mpr (by simp),
    count_flatMap_zipIdx (k := index) (by simp), List.count_eq_zero.mpr (by simp), Nat.zero_add,
    Nat.add_zero]
  congr 1
  funext stmt
  dsimp only
  rw [stmt.usedNames_eq, count_map_name?]

theorem count_useSites_terminator :
    (b.useSites id).count (n, .terminator id) = b.terminator.operands.count (.name n) := by
  rw [useSites, List.count_append, List.count_append, List.count_eq_zero.mpr (by simp),
    List.count_eq_zero.mpr (by simp), Nat.zero_add, Terminator.usedNames,
    count_map_name?]

end Block

namespace Function

/-- The uses of a name are its occurrences as an operand. -/
theorem count_uses {f : Function} {n : NameId} (inside : n < f.nameCount) (site : UseSite) :
    (f.uses n).count site = f.occurrences n site := by
  have only : ∀ (b : Block) (id : BlockId), (n, site) ∈ b.useSites id → id = site.block :=
    fun _ _ member => (Block.block_of_mem_useSites member).symm
  rw [uses, if_pos inside, count_map_snd_filter, useSites, count_flatMap_zipIdx only]
  cases site with
  | phi block index predecessor =>
      simp only [UseSite.block, Block.count_useSites_phi, occurrences, phiAt?, block?]
      cases f.blocks[block]? <;> rfl
  | stmt block index =>
      simp only [UseSite.block, Block.count_useSites_stmt, occurrences, stmtAt?, block?]
      cases f.blocks[block]? <;> rfl
  | terminator block =>
      simp only [UseSite.block, Block.count_useSites_terminator, occurrences, block?]

/-- The number of an edge is listed once where the edge passes the test. -/
theorem count_edgesWhere (f : Function) (test : Edge → Bool) (id : EdgeId) :
    (f.edgesWhere test).count id = if (f.edge? id).any test then 1 else 0 := by
  have once : (f.edgesWhere test).Nodup :=
    (List.nodup_zipIdx_map_snd f.edges).sublist (List.filter_sublist.map _)
  rw [once.count]
  refine if_congr ?_ rfl rfl
  rw [mem_edgesWhere, Option.any_eq_true]

end Function

/-! ## The tables -/

/-- An edge says how its source block leads to its target. -/
structure Edge.Mirrors (e : Edge) (source target : Block) : Prop where
  leads : e.dst ∈ source.terminator.targets ++ source.abnormal
  onTrue : e.flags.onTrue = true ↔ ∃ cond onFalse, source.terminator = .branch cond e.dst onFalse
  onFalse : e.flags.onFalse = true ↔ ∃ cond onTrue, source.terminator = .branch cond onTrue e.dst
  abnormal : e.flags.abnormal = true ↔ e.dst ∈ source.abnormal
  split : e.flags.split = (source.split || target.split)

namespace Tables

variable {t : Tables} {f : Function}

/-- The tables say what the blocks say. -/
structure Mirrors (t : Tables) (f : Function) : Prop where
  /-- Between two blocks there is one edge. -/
  nodup_ends : (t.edges.map fun e => (e.src, e.dst)).Nodup
  /-- An edge leads from a block to a target of it that exists, in every way the block does. -/
  edge : ∀ e ∈ t.edges, ∃ source target,
    f.block? e.src = some source ∧ f.block? e.dst = some target ∧ e.Mirrors source target
  /-- To every target of a block that exists there is an edge. -/
  target : ∀ src block, f.block? src = some block →
    ∀ dst ∈ block.terminator.targets ++ block.abnormal, dst < f.blockCount →
      ∃ e ∈ t.edges, e.src = src ∧ e.dst = dst
  /-- The number of an edge is listed once with the block it leaves, and nowhere else. -/
  succEdges : ∀ block id, (t.succEdges block).count id =
    if (t.edges[id]?).any (·.src == block) then 1 else 0
  /-- The number of an edge is listed once with the block it enters, and nowhere else. -/
  predEdges : ∀ block id, (t.predEdges block).count id =
    if (t.edges[id]?).any (·.dst == block) then 1 else 0
  /-- A use is listed as often as the name is an operand there. -/
  uses : ∀ name < f.nameCount, ∀ site, (t.usesOf name).count site = f.occurrences name site

/-- Tables that agree with a function mirror its blocks. -/
theorem Agrees.mirrors (same : t.Agrees f) : t.Mirrors f where
  nodup_ends := same.edges ▸ f.nodup_ends
  edge := by
    intro e member
    obtain ⟨source, target, flags, leaves, enters, out, flagged⟩ :=
      Function.mem_edges.mp (same.edges ▸ member)
    refine ⟨source, target, leaves, enters, Block.mem_outgoing.mp ⟨flags, out⟩, ?_, ?_, ?_, ?_⟩
    · simpa only [flagged] using Block.onTrue_iff out
    · simpa only [flagged] using Block.onFalse_iff out
    · simpa only [flagged] using Block.abnormal_iff out
    · rw [flagged]
  target := by
    intro src block leaves dst listed inside
    obtain ⟨flags, out⟩ := Block.mem_outgoing.mpr listed
    have enters : f.block? dst = some f.blocks[dst] := List.getElem?_eq_getElem inside
    rw [same.edges]
    exact ⟨⟨src, dst, { flags with split := block.split || f.blocks[dst].split }⟩,
      Function.mem_edges.mpr ⟨block, _, flags, leaves, enters, out, rfl⟩, rfl, rfl⟩
  succEdges block id := by
    rw [same.succEdges, same.edges]
    exact f.count_edgesWhere (·.src == block) id
  predEdges block id := by
    rw [same.predEdges, same.edges]
    exact f.count_edgesWhere (·.dst == block) id
  uses name inside site := by
    rw [same.uses, Function.count_uses inside]

end Tables

namespace Function

/-- The tables of a function agree with what is computed from it, and mirror its blocks. If the
    function is valid, the operands of a merge name each predecessor of its block once. -/
theorem tables_mirror (f : Function) :
    f.tables.Agrees f ∧ f.tables.Mirrors f ∧
    (f.validate = .ok () → ∀ id block, f.block? id = some block → ∀ phi ∈ block.phis,
      (phi.operands.map PhiOperand.predecessor).Perm (f.tables.predecessors id) ∧
      (phi.operands.map PhiOperand.predecessor).Nodup) := by
  refine ⟨f.tables_agree, f.tables_agree.mirrors, ?_⟩
  intro valid id block here phi merge
  have named : (phi.operands.map PhiOperand.predecessor).Perm (f.predecessors id) :=
    (valid_of_validate valid).perm_predecessors here merge
  rw [f.tables_agree.predecessors]
  exact ⟨named, named.nodup_iff.mpr (f.nodup_predecessors id)⟩

end Function

/-- The magnitude of a parameter. The block 1 leads to the merge in two ways, and the merge names
    it before the block 0. -/
def magnitude : Function where
  name := "magnitude"
  names :=
    [ ⟨.int ⟨8, eight_bits⟩ .signed, .param 0 false⟩, ⟨.int ⟨8, eight_bits⟩ .signed, .defined⟩,
      ⟨.int ⟨8, eight_bits⟩ .signed, .defined⟩ ]
  blocks :=
    [ .ofTerminator (.branch ⟨.lt, .name 0, .const 0⟩ 1 2),
      ⟨[], [.assign 1 (.unary .negate (.name 0))], .jump 2, [2], false⟩,
      ⟨[⟨2, [⟨1, .name 1⟩, ⟨0, .name 0⟩]⟩], [], .return (some (.name 2)), [], false⟩ ]

theorem tables_mirror_magnitude :
    magnitude.validate = .ok () ∧ magnitude.tables.predecessors 2 = [0, 1] ∧
    ([1, 0] : List BlockId).Perm (magnitude.tables.predecessors 2) ∧
    magnitude.tables.edges[2]? = some ⟨1, 2, { abnormal := true }⟩ ∧
    (magnitude.tables.predEdges 2).count 2 = 1 ∧
    (magnitude.tables.usesOf 0).count (.phi 2 0 0) = 1 := by
  have ⟨_, mirror, merges⟩ := magnitude.tables_mirror
  exact ⟨rfl, rfl, (merges rfl 2 _ rfl _ (List.mem_singleton_self _)).1, rfl,
    mirror.predEdges 2 2, mirror.uses 0 (by decide) (.phi 2 0 0)⟩

end RangeFlow
