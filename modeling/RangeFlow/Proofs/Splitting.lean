import Mathlib.Data.List.Induction
import RangeFlow.Assertion.Insert
import RangeFlow.Proofs.Predecessors

/-! # Splitting edges

Edges are split one after the other, and each split changes the blocks at both ends. Here all splits
are described at once: every target and every predecessor on a split edge is replaced by the new
block on it. A path through the new function passes the blocks of a path through the old one.
-/

namespace RangeFlow

namespace Terminator

theorem retarget_retarget (t : Terminator) (p q : BlockId → BlockId) :
    (t.retarget p).retarget q = t.retarget fun b => q (p b) := by
  cases t <;> simp [retarget]

theorem retarget_congr {t : Terminator} {p q : BlockId → BlockId}
    (h : ∀ b ∈ t.targets, p b = q b) : t.retarget p = t.retarget q := by
  cases t with
  | switch index cases default =>
      simp only [targets, List.mem_append, List.mem_map, List.mem_singleton] at h
      simp only [retarget, switch.injEq, true_and]
      refine ⟨List.map_congr_left fun case hcase => ?_, h default (.inr rfl)⟩
      rw [h case.target (.inl ⟨case, hcase, rfl⟩)]
  | jump | branch | «return» | unreachable => simp_all [retarget, targets]

theorem retarget_id (t : Terminator) : t.retarget (fun b => b) = t := by
  cases t <;> simp [retarget]

@[simp] theorem targets_retarget (t : Terminator) (p : BlockId → BlockId) :
    (t.retarget p).targets = t.targets.map p := by
  cases t <;> simp [retarget, targets]

@[simp] theorem operands_retarget (t : Terminator) (p : BlockId → BlockId) :
    (t.retarget p).operands = t.operands := by
  cases t <;> rfl

end Terminator

namespace Phi

/-- The merge with other predecessors in place of its own. -/
def redirect (p : BlockId → BlockId) (phi : Phi) : Phi :=
  { phi with operands := phi.operands.map fun o => { o with predecessor := p o.predecessor } }

theorem redirect_redirect (phi : Phi) (p q : BlockId → BlockId) :
    (phi.redirect p).redirect q = phi.redirect fun b => q (p b) := by
  simp [redirect, Function.comp_def]

theorem redirect_congr {phi : Phi} {p q : BlockId → BlockId}
    (h : ∀ o ∈ phi.operands, p o.predecessor = q o.predecessor) :
    phi.redirect p = phi.redirect q := by
  simp only [redirect, Phi.mk.injEq, true_and]
  refine List.map_congr_left fun o ho => ?_
  rw [h o ho]

theorem redirect_id : redirect (fun b => b) = id := by
  funext phi
  simp [redirect]

end Phi

/-- The block with other targets and other predecessors in place of its own. -/
def Block.redirect (forth back : BlockId → BlockId) (b : Block) : Block :=
  { b with phis := b.phis.map (Phi.redirect back), terminator := b.terminator.retarget forth }

theorem Block.redirect_redirect (b : Block) (forth back forth' back' : BlockId → BlockId) :
    (b.redirect forth back).redirect forth' back' =
      b.redirect (fun t => forth' (forth t)) fun p => back' (back p) := by
  simp [redirect, Terminator.retarget_retarget, Phi.redirect_redirect, Function.comp_def]

theorem Block.redirect_congr {b : Block} {forth back forth' back' : BlockId → BlockId}
    (targets : ∀ t ∈ b.terminator.targets, forth t = forth' t)
    (predecessors : ∀ phi ∈ b.phis, ∀ o ∈ phi.operands, back o.predecessor = back' o.predecessor) :
    b.redirect forth back = b.redirect forth' back' := by
  unfold redirect
  rw [Terminator.retarget_congr targets,
    List.map_congr_left fun phi hphi => Phi.redirect_congr (predecessors phi hphi)]

theorem Block.redirect_id (b : Block) : b.redirect (fun t => t) (fun p => p) = b := by
  simp [redirect, Terminator.retarget_id, Phi.redirect_id]

namespace Function

/-- The block that is put on an edge, when the given edges get blocks of their own. -/
def bypass? (f : Function) (splits : List (BlockId × BlockId)) (ends : BlockId × BlockId) :
    Option BlockId :=
  (splits.findIdx? (· == ends)).map (f.blockCount + ·)

/-- The target of a block, or the block that is put before it. -/
def forth (f : Function) (splits : List (BlockId × BlockId)) (src : BlockId) (t : BlockId) :
    BlockId :=
  (f.bypass? splits (src, t)).getD t

/-- The predecessor of a block, or the block that is put behind it. -/
def back (f : Function) (splits : List (BlockId × BlockId)) (dst : BlockId) (p : BlockId) :
    BlockId :=
  (f.bypass? splits (p, dst)).getD p

/-- A block that is put on an edge to a block. -/
def splitBlock (dst : BlockId) : Block := { Block.ofTerminator (.jump dst) with split := true }

/-- The function with blocks on all the given edges. -/
def splitAll (f : Function) (splits : List (BlockId × BlockId)) : Function :=
  { f with blocks := (f.blocks.mapIdx fun id b => b.redirect (f.forth splits id) (f.back splits id)) ++
      splits.map fun ends => splitBlock ends.2 }

section Bypass

variable {f : Function} {splits : List (BlockId × BlockId)} {ends new : BlockId × BlockId}
  {id : BlockId}

theorem bypass?_eq_some (nodup : splits.Nodup) :
    f.bypass? splits ends = some id ↔ ∃ i, splits[i]? = some ends ∧ id = f.blockCount + i := by
  simp only [bypass?, Option.map_eq_some_iff]
  constructor
  · rintro ⟨i, found, rfl⟩
    obtain ⟨inBounds, here, -⟩ := List.findIdx?_eq_some_iff_getElem.mp found
    exact ⟨i, by rw [List.getElem?_eq_getElem inBounds, eq_of_beq here], rfl⟩
  · rintro ⟨i, here, rfl⟩
    obtain ⟨inBounds, here⟩ := List.getElem?_eq_some_iff.mp here
    refine ⟨i, List.findIdx?_eq_some_iff_getElem.mpr ⟨inBounds, by simp [here], ?_⟩, rfl⟩
    intro j earlier same
    have equal : splits[j] = splits[i] := (eq_of_beq same).trans here.symm
    have := (nodup.getElem_inj_iff).mp equal
    omega

theorem bypass?_eq_none : f.bypass? splits ends = none ↔ ends ∉ splits := by
  simp only [bypass?, Option.map_eq_none_iff, List.findIdx?_eq_none_iff]
  constructor
  · intro h member
    simpa using h ends member
  · intro h e he
    simp only [beq_eq_false_iff_ne]
    rintro rfl
    exact h he

theorem bypass?_concat (fresh : new ∉ splits) :
    f.bypass? (splits ++ [new]) ends =
      if ends = new then some (f.blockCount + splits.length) else f.bypass? splits ends := by
  by_cases same : ends = new
  · subst same
    have absent : splits.findIdx? (· == ends) = none := by
      simpa [bypass?] using (bypass?_eq_none (f := f)).mpr fresh
    simp [bypass?, List.findIdx?_append, absent, List.findIdx?_cons]
  · have other : (new == ends) = false := by simpa using Ne.symm same
    simp [bypass?, List.findIdx?_append, List.findIdx?_cons, other, same]

theorem bypass?_ge (h : f.bypass? splits ends = some id) : f.blockCount ≤ id := by
  obtain ⟨i, -, rfl⟩ := Option.map_eq_some_iff.mp h
  exact Nat.le_add_right _ _

theorem forth_concat {src t : BlockId} (fresh : new ∉ splits) :
    f.forth (splits ++ [new]) src t =
      if (src, t) = new then f.blockCount + splits.length else f.forth splits src t := by
  unfold forth
  rw [bypass?_concat fresh]
  split <;> rfl

theorem back_concat {dst p : BlockId} (fresh : new ∉ splits) :
    f.back (splits ++ [new]) dst p =
      if (p, dst) = new then f.blockCount + splits.length else f.back splits dst p := by
  unfold back
  rw [bypass?_concat fresh]
  split <;> rfl

/-- A target that is an old block is the target itself. -/
theorem forth_eq_old {src t d : BlockId} (old : d < f.blockCount)
    (h : f.forth splits src t = d) : t = d ∧ (src, t) ∉ splits := by
  unfold forth at h
  cases found : f.bypass? splits (src, t) with
  | none =>
      rw [found] at h
      exact ⟨h, bypass?_eq_none.mp found⟩
  | some id =>
      have new : f.blockCount ≤ id := bypass?_ge found
      rw [found, Option.getD_some] at h
      exact absurd (h ▸ old) (Nat.not_lt.mpr new)

theorem back_eq_old {dst p d : BlockId} (old : d < f.blockCount)
    (h : f.back splits dst p = d) : p = d ∧ (p, dst) ∉ splits := by
  unfold back at h
  cases found : f.bypass? splits (p, dst) with
  | none =>
      rw [found] at h
      exact ⟨h, bypass?_eq_none.mp found⟩
  | some id =>
      have new : f.blockCount ≤ id := bypass?_ge found
      rw [found, Option.getD_some] at h
      exact absurd (h ▸ old) (Nat.not_lt.mpr new)

end Bypass

section Split

variable {f : Function} {splits : List (BlockId × BlockId)} {id : BlockId}

theorem blockCount_splitAll : (f.splitAll splits).blockCount = f.blockCount + splits.length := by
  simp [splitAll, blockCount]

theorem block?_splitAll_old (old : id < f.blockCount) :
    (f.splitAll splits).block? id =
      (f.block? id).map (Block.redirect (f.forth splits id) (f.back splits id)) := by
  have inBounds : id < (f.blocks.mapIdx fun id b =>
      b.redirect (f.forth splits id) (f.back splits id)).length := by
    simpa [blockCount] using old
  simp only [splitAll, block?]
  rw [List.getElem?_append_left inBounds, List.getElem?_mapIdx]

theorem block?_splitAll_new {i : Nat} :
    (f.splitAll splits).block? (f.blockCount + i) =
      (splits[i]?).map fun ends => splitBlock ends.2 := by
  simp [splitAll, block?, blockCount, List.getElem?_append_right]

theorem of_block?_splitAll {b : Block} (h : (f.splitAll splits).block? id = some b) :
    (∃ b₀, f.block? id = some b₀ ∧ b = b₀.redirect (f.forth splits id) (f.back splits id)) ∨
      ∃ ends : BlockId × BlockId, b = splitBlock ends.2 := by
  by_cases old : id < f.blockCount
  · rw [block?_splitAll_old old] at h
    obtain ⟨b₀, hb₀, rfl⟩ := Option.map_eq_some_iff.mp h
    exact .inl ⟨b₀, hb₀, rfl⟩
  · obtain ⟨i, rfl⟩ := Nat.exists_eq_add_of_le (Nat.le_of_not_lt old)
    rw [block?_splitAll_new] at h
    obtain ⟨ends, -, rfl⟩ := Option.map_eq_some_iff.mp h
    exact .inr ⟨ends, rfl⟩

theorem map_blocks_splitAll {β : Type} (c : Block → β)
    (same : ∀ forth back b, c (Block.redirect forth back b) = c b) :
    (f.splitAll splits).blocks.map c =
      f.blocks.map c ++ splits.map fun ends => c (splitBlock ends.2) := by
  have old : (f.blocks.mapIdx fun id b =>
      b.redirect (f.forth splits id) (f.back splits id)).map c = f.blocks.map c := by
    refine List.ext_getElem? fun id => ?_
    simp [List.getElem?_mapIdx, Function.comp_def, same]
  rw [splitAll, List.map_append, old, List.map_map]
  rfl

theorem block?_splitEdge (g : Function) (ends : BlockId × BlockId) :
    (g.splitEdge ends).block? id = ((g.blocks ++ [splitBlock ends.2])[id]?).map
      (Block.redirect (fun t => if (id, t) = ends then g.blockCount else t)
        fun p => if (p, id) = ends then g.blockCount else p) := by
  obtain ⟨src, dst⟩ := ends
  have from_ : ∀ p new, redirectFrom p new = Phi.redirect fun q => if q = p then new else q := by
    intro p new
    funext phi
    simp only [redirectFrom, Phi.redirect, Phi.mk.injEq, true_and]
    refine List.map_congr_left fun o _ => ?_
    split <;> rfl
  simp only [splitEdge, addBlock, modifyBlock, block?, List.getElem?_modify, from_]
  change (Option.map _ ((g.blocks ++ [splitBlock dst])[id]?)).map _ = _
  rw [Option.map_map]
  congr 1
  funext b
  have targets : ∀ t, ((id, t) = (src, dst)) = (src = id ∧ t = dst) := by
    intro t
    rw [Prod.mk.injEq, @eq_comm _ id]
  have predecessors : ∀ p, ((p, id) = (src, dst)) = (p = src ∧ dst = id) := by
    intro p
    rw [Prod.mk.injEq, @eq_comm _ id]
  simp only [Function.comp, targets, predecessors]
  by_cases here : src = id <;> by_cases there : dst = id <;>
    simp only [here, there, if_true, if_false, true_and, and_true, false_and, and_false,
      Block.redirect, Terminator.retarget_id, Phi.redirect_id, List.map_id]

/-- One more split puts a block on one more edge. -/
theorem splitEdge_splitAll {new : BlockId × BlockId} (fresh : new ∉ splits)
    (src : new.1 < f.blockCount) (dst : new.2 < f.blockCount) :
    (f.splitAll splits).splitEdge new = f.splitAll (splits ++ [new]) := by
  have blocks : ∀ id, ((f.splitAll splits).splitEdge new).block? id =
      (f.splitAll (splits ++ [new])).block? id := by
    intro id
    rw [block?_splitEdge, blockCount_splitAll]
    by_cases old : id < f.blockCount
    · have here : ((f.splitAll splits).blocks ++ [splitBlock new.2])[id]? =
          (f.block? id).map (Block.redirect (f.forth splits id) (f.back splits id)) := by
        rw [← block?_splitAll_old old, block?, List.getElem?_append_left]
        have count : (f.splitAll splits).blocks.length = f.blockCount + splits.length :=
          blockCount_splitAll
        exact count ▸ Nat.lt_add_right _ old
      rw [here, block?_splitAll_old old, Option.map_map]
      congr 1
      funext b
      simp only [Function.comp, Block.redirect_redirect]
      -- an end that an earlier split has moved is a new block, so this split leaves it alone
      refine Block.redirect_congr (fun t _ => ?_) fun phi _ o _ => ?_
      · rw [forth_concat fresh]
        by_cases same : (id, t) = new
        · rw [if_pos same, forth, bypass?_eq_none.mpr (same ▸ fresh)]
          exact if_pos same
        · rw [if_neg same, if_neg]
          intro again
          have unchanged : t = new.2 := (forth_eq_old dst (congrArg Prod.snd again)).1
          have here : id = new.1 := congrArg Prod.fst again
          exact same (by rw [unchanged, here])
      · rw [back_concat fresh]
        by_cases same : (o.predecessor, id) = new
        · rw [if_pos same, back, bypass?_eq_none.mpr (same ▸ fresh)]
          exact if_pos same
        · rw [if_neg same, if_neg]
          intro again
          have unchanged : o.predecessor = new.1 :=
            (back_eq_old src (congrArg Prod.fst again)).1
          have here : id = new.2 := congrArg Prod.snd again
          exact same (by rw [unchanged, here])
    · obtain ⟨i, rfl⟩ := Nat.exists_eq_add_of_le (Nat.le_of_not_lt old)
      have here : ((f.splitAll splits).blocks ++ [splitBlock new.2])[f.blockCount + i]? =
          ((splits ++ [new])[i]?).map fun ends => splitBlock ends.2 := by
        rw [← List.getElem?_map]
        simp [splitAll, blockCount, List.getElem?_append_right]
      rw [here, block?_splitAll_new, Option.map_map]
      congr 1
      funext ends
      simp only [Function.comp, splitBlock, Block.redirect, Block.ofTerminator, Terminator.retarget]
      rw [if_neg]
      · rfl
      · rintro rfl
        exact old src
  have lists := List.ext_getElem? blocks
  unfold splitAll at lists ⊢
  simp only [splitEdge, addBlock, modifyBlock] at lists ⊢
  rw [lists]

/-- Splitting edges one after the other splits them all. -/
theorem foldl_splitEdge (nodup : splits.Nodup)
    (inside : ∀ ends ∈ splits, ends.1 < f.blockCount ∧ ends.2 < f.blockCount) :
    splits.foldl splitEdge f = f.splitAll splits := by
  induction splits using List.reverseRecOn with
  | nil =>
      have blocks : f.blocks.mapIdx (fun id b => b.redirect (f.forth [] id) (f.back [] id)) =
          f.blocks := by
        refine List.ext_getElem? fun id => ?_
        rw [List.getElem?_mapIdx]
        exact (congrArg (Option.map · _) (funext fun b => b.redirect_id)).trans Option.map_id'
      simp [splitAll, blocks]
  | append_singleton splits new ih =>
      obtain ⟨before, -, apart⟩ := List.nodup_append.mp nodup
      have fresh : new ∉ splits := fun member => apart new member new (by simp) rfl
      obtain ⟨src, dst⟩ := inside new (by simp)
      rw [List.foldl_append, ih before fun e he => inside e (List.mem_append_left _ he)]
      exact splitEdge_splitAll fresh src dst

/-- Edges that can get blocks of their own: each is listed once, and no exception takes it. -/
structure Splittable (f : Function) (splits : List (BlockId × BlockId)) : Prop where
  nodup : splits.Nodup
  taken : ∀ src dst, (src, dst) ∈ splits →
    ∃ b, f.block? src = some b ∧ dst ∈ b.terminator.targets ∧ dst ∉ b.abnormal

namespace Splittable

variable {src dst p t : BlockId} {i : Nat}

theorem feeds (ok : f.Splittable splits) (h : (src, dst) ∈ splits) : f.Feeds src dst := by
  obtain ⟨b, hb, target, -⟩ := ok.taken src dst h
  exact ⟨b, hb, List.mem_append_left _ target⟩

theorem foldl_splitEdge (hf : f.Valid) (ok : f.Splittable splits) :
    splits.foldl splitEdge f = f.splitAll splits :=
  Function.foldl_splitEdge ok.nodup fun _ member => hf.feeds_lt (ok.feeds member)

theorem forth_eq_new (ok : f.Splittable splits) (h : splits[i]? = some (src, dst)) :
    f.forth splits src dst = f.blockCount + i := by
  have found := (bypass?_eq_some (f := f) ok.nodup).mpr ⟨i, h, rfl⟩
  rw [forth, found, Option.getD_some]

theorem back_eq_new (ok : f.Splittable splits) (h : splits[i]? = some (src, dst)) :
    f.back splits dst src = f.blockCount + i := by
  have found := (bypass?_eq_some (f := f) ok.nodup).mpr ⟨i, h, rfl⟩
  rw [back, found, Option.getD_some]

theorem back_inj (ok : f.Splittable splits) {q : BlockId} (hp : p < f.blockCount)
    (hq : q < f.blockCount) (same : f.back splits t p = f.back splits t q) : p = q := by
  cases found : f.bypass? splits (p, t) with
  | none =>
      have unchanged : f.back splits t p = p := by rw [back, found, Option.getD_none]
      exact (back_eq_old hp (same.symm.trans unchanged)).1.symm
  | some new =>
      obtain ⟨i, hi, rfl⟩ := (bypass?_eq_some ok.nodup).mp found
      cases other : f.bypass? splits (q, t) with
      | none =>
          have unchanged : f.back splits t q = q := by rw [back, other, Option.getD_none]
          exact (back_eq_old hq (same.trans unchanged)).1
      | some new =>
          obtain ⟨j, hj, rfl⟩ := (bypass?_eq_some ok.nodup).mp other
          rw [ok.back_eq_new hi, ok.back_eq_new hj] at same
          have index : i = j := Nat.add_left_cancel same
          subst index
          rw [hi] at hj
          exact congrArg Prod.fst (Option.some.inj hj)

/-- Control goes where it went before, or to and from a block on a split edge. -/
theorem feeds_iff (hf : f.Valid) (ok : f.Splittable splits) :
    (f.splitAll splits).Feeds p t ↔
      (f.Feeds p t ∧ (p, t) ∉ splits) ∨
      (∃ i dst, splits[i]? = some (p, dst) ∧ t = f.blockCount + i) ∨
      ∃ i src, splits[i]? = some (src, t) ∧ p = f.blockCount + i := by
  -- an old block still goes everywhere but along split edges; a new one only jumps to its target
  by_cases old : p < f.blockCount
  · have here : ∀ b', (f.splitAll splits).block? p = some b' ↔
        ∃ b, f.block? p = some b ∧ b.redirect (f.forth splits p) (f.back splits p) = b' := by
      intro b'
      rw [block?_splitAll_old old, Option.map_eq_some_iff]
    constructor
    · rintro ⟨b', hb', target⟩
      obtain ⟨b, hb, rfl⟩ := (here _).mp hb'
      rcases List.mem_append.mp target with normal | raised
      · simp only [Block.redirect, Terminator.targets_retarget, List.mem_map] at normal
        obtain ⟨t, ht, rfl⟩ := normal
        cases found : f.bypass? splits (p, t) with
        | none =>
            simp only [forth, found, Option.getD_none]
            exact .inl ⟨⟨b, hb, List.mem_append_left _ ht⟩, bypass?_eq_none.mp found⟩
        | some new =>
            obtain ⟨i, hi, rfl⟩ := (bypass?_eq_some ok.nodup).mp found
            exact .inr (.inl ⟨i, t, hi, ok.forth_eq_new hi⟩)
      · refine .inl ⟨⟨b, hb, List.mem_append_right _ raised⟩, fun split => ?_⟩
        obtain ⟨c, hc, -, normal⟩ := ok.taken p t split
        rw [hb] at hc
        cases hc
        exact normal raised
    · rintro (⟨⟨b, hb, target⟩, unsplit⟩ | ⟨i, dst, hi, rfl⟩ | ⟨i, src, hi, rfl⟩)
      · refine ⟨_, (here _).mpr ⟨b, hb, rfl⟩, ?_⟩
        rcases List.mem_append.mp target with normal | raised
        · refine List.mem_append_left _ ?_
          simp only [Block.redirect, Terminator.targets_retarget, List.mem_map]
          exact ⟨t, normal, by rw [forth, bypass?_eq_none.mpr unsplit, Option.getD_none]⟩
        · exact List.mem_append_right _ raised
      · obtain ⟨b, hb, target, -⟩ := ok.taken p dst (List.mem_of_getElem? hi)
        refine ⟨_, (here _).mpr ⟨b, hb, rfl⟩, List.mem_append_left _ ?_⟩
        simp only [Block.redirect, Terminator.targets_retarget, List.mem_map]
        exact ⟨dst, target, ok.forth_eq_new hi⟩
      · exact absurd old (Nat.not_lt.mpr (Nat.le_add_right _ _))
  · obtain ⟨j, rfl⟩ := Nat.exists_eq_add_of_le (Nat.le_of_not_lt old)
    have unfed : ∀ t, ¬ f.Feeds (f.blockCount + j) t := fun t h => old (hf.feeds_lt h).1
    constructor
    · rintro ⟨b', hb', target⟩
      rw [block?_splitAll_new] at hb'
      obtain ⟨⟨src, dst⟩, hj, rfl⟩ := Option.map_eq_some_iff.mp hb'
      have jumps : t = dst := by
        simpa [splitBlock, Block.ofTerminator, Terminator.targets] using target
      exact .inr (.inr ⟨j, src, jumps ▸ hj, rfl⟩)
    · rintro (⟨fed, -⟩ | ⟨i, dst, hi, rfl⟩ | ⟨i, src, hi, same⟩)
      · exact absurd fed (unfed t)
      · exact absurd (ok.feeds (List.mem_of_getElem? hi)) (unfed dst)
      · have index : j = i := Nat.add_left_cancel same
        subst index
        refine ⟨splitBlock t, by rw [block?_splitAll_new, hi]; rfl, ?_⟩
        simp [splitBlock, Block.ofTerminator, Terminator.targets]

/-- The predecessors of an old block are the old ones, each behind the split of its edge. -/
theorem predecessors_perm (hf : f.Valid) (ok : f.Splittable splits) (old : t < f.blockCount) :
    ((f.splitAll splits).predecessors t).Perm ((f.predecessors t).map (f.back splits t)) := by
  have inside : t < (f.splitAll splits).blockCount := by
    rw [blockCount_splitAll]
    exact Nat.lt_add_right _ old
  have fedOld : ∀ p ∈ f.predecessors t, p < f.blockCount := fun p hp =>
    (hf.feeds_lt ((mem_predecessors old).mp hp)).1
  refine (List.perm_ext_iff_of_nodup (nodup_predecessors ..) ?_).mpr fun p => ?_
  · refine (nodup_predecessors f t).map_on fun p hp q hq same => ?_
    exact ok.back_inj (fedOld p hp) (fedOld q hq) same
  · rw [mem_predecessors inside, ok.feeds_iff hf, List.mem_map]
    constructor
    · rintro (⟨fed, unsplit⟩ | ⟨i, dst, -, rfl⟩ | ⟨i, src, hi, rfl⟩)
      · refine ⟨p, (mem_predecessors old).mpr fed, ?_⟩
        rw [back, bypass?_eq_none.mpr unsplit, Option.getD_none]
      · exact absurd old (Nat.not_lt.mpr (Nat.le_add_right _ _))
      · exact ⟨src, (mem_predecessors old).mpr (ok.feeds (List.mem_of_getElem? hi)),
          ok.back_eq_new hi⟩
    · rintro ⟨q, hq, rfl⟩
      have fed := (mem_predecessors old).mp hq
      cases found : f.bypass? splits (q, t) with
      | none =>
          simp only [back, found, Option.getD_none]
          exact .inl ⟨fed, bypass?_eq_none.mp found⟩
      | some new =>
          obtain ⟨i, hi, rfl⟩ := (bypass?_eq_some ok.nodup).mp found
          exact .inr (.inr ⟨i, q, hi, ok.back_eq_new hi⟩)

/-- Control comes to a block on an edge from the source of the edge alone. -/
theorem predecessors_new (hf : f.Valid) (ok : f.Splittable splits)
    (h : splits[i]? = some (src, dst)) :
    (f.splitAll splits).predecessors (f.blockCount + i) = [src] := by
  have inside : f.blockCount + i < (f.splitAll splits).blockCount := by
    rw [blockCount_splitAll]
    exact Nat.add_lt_add_left (List.getElem?_eq_some_iff.mp h).1 _
  refine List.perm_singleton.mp ((List.perm_ext_iff_of_nodup (nodup_predecessors ..)
    (List.nodup_singleton _)).mpr fun p => ?_)
  rw [mem_predecessors inside, ok.feeds_iff hf, List.mem_singleton]
  constructor
  · rintro (⟨fed, -⟩ | ⟨j, d, hj, same⟩ | ⟨j, s, hj, -⟩)
    · exact absurd (hf.feeds_lt fed).2 (Nat.not_lt.mpr (Nat.le_add_right _ _))
    · have index : i = j := Nat.add_left_cancel same
      subst index
      rw [h] at hj
      cases hj
      rfl
    · have inner := (hf.feeds_lt (ok.feeds (List.mem_of_getElem? hj))).2
      exact absurd inner (Nat.not_lt.mpr (Nat.le_add_right _ _))
  · rintro rfl
    exact .inr (.inl ⟨i, dst, h, rfl⟩)

/-- A path through the function with splits passes the old blocks in the order of an old path. -/
theorem path_old (hf : f.Valid) (ok : f.Splittable splits) {passed : List BlockId}
    (way : (f.splitAll splits).Path t passed) :
    (t < f.blockCount → f.Path t (passed.filter (· < f.blockCount))) ∧
      ∀ i src dst, splits[i]? = some (src, dst) → t = f.blockCount + i →
        ∃ before, passed = src :: before ∧ f.Path src (before.filter (· < f.blockCount)) := by
  have nonempty : 0 < f.blockCount := List.length_pos_iff.mpr hf.nonempty
  generalize hg : f.splitAll splits = g at way
  induction way with
  | entry =>
      refine ⟨fun _ => .entry, fun i src dst _ same => ?_⟩
      have : (0 : Nat) = f.blockCount + i := same
      omega
  | @step p t passed b way hb ht ih =>
      subst hg
      have fed : (f.splitAll splits).Feeds p t := ⟨b, hb, ht⟩
      rcases (ok.feeds_iff hf).mp fed with ⟨fed, -⟩ | ⟨i, dst, hi, rfl⟩ | ⟨i, src, hi, rfl⟩
      · have bounds := hf.feeds_lt fed
        refine ⟨fun _ => ?_, fun i _ _ _ same => ?_⟩
        · rw [List.filter_cons_of_pos (by simpa using bounds.1)]
          exact (ih.1 bounds.1).step_feeds fed
        · exact absurd bounds.2 (Nat.not_lt.mpr (same ▸ Nat.le_add_right _ _))
      · have bounds := hf.feeds_lt (ok.feeds (List.mem_of_getElem? hi))
        refine ⟨fun old => absurd old (Nat.not_lt.mpr (Nat.le_add_right _ _)), ?_⟩
        intro j src dst' hj same
        have index : i = j := Nat.add_left_cancel same
        subst index
        rw [hi] at hj
        cases hj
        exact ⟨passed, rfl, ih.1 bounds.1⟩
      · have fed := ok.feeds (List.mem_of_getElem? hi)
        have bounds := hf.feeds_lt fed
        obtain ⟨before, rfl, path⟩ := ih.2 i src t hi rfl
        refine ⟨fun _ => ?_, fun j _ _ _ same => ?_⟩
        · rw [List.filter_cons_of_neg (by simp), List.filter_cons_of_pos (by simpa using bounds.1)]
          exact path.step_feeds fed
        · exact absurd bounds.2 (Nat.not_lt.mpr (same ▸ Nat.le_add_right _ _))

end Splittable

end Split

end Function

end RangeFlow
