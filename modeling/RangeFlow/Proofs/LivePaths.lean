import Mathlib.Logic.Relation
import RangeFlow.Proofs.LiveNames

/-! # Live names and paths

A name is live at a stage of a function if control can go on from there to a read of the name
without setting it before. The computed sets of live names are compared with this: what is live by
paths solves the equations, and a path is followed back from its read through blocks in which the
equations hold.
-/

namespace RangeFlow

open Relation

/-- Where control is. -/
inductive Stage where
  /-- At the head of a block, in front of its merges. -/
  | head (block : BlockId)
  /-- Behind the merges, in front of a statement; in front of the terminator if the index is the
      number of statements. -/
  | inside (block : BlockId) (index : Nat)
  deriving Repr, DecidableEq

/-- The block of a stage. -/
def Stage.block : Stage → BlockId
  | head block => block
  | inside block _ => block

namespace Function

variable {f : Function} {n : NameId} {b t : BlockId} {block : Block} {p q : Stage}

/-- Control goes on to the next stage, and the name is not set on the way. -/
inductive Skips (f : Function) (n : NameId) : Stage → Stage → Prop where
  | merges {b : BlockId} {block : Block} (hb : f.block? b = some block)
      (free : ∀ phi ∈ block.phis, phi.dest ≠ n) : Skips f n (.head b) (.inside b 0)
  | stmt {b : BlockId} {index : Nat} {stmt : Stmt} (hstmt : f.stmtAt? b index = some stmt)
      (free : stmt.dest? ≠ some n) : Skips f n (.inside b index) (.inside b (index + 1))
  | edge {b t : BlockId} {block : Block} (hb : f.block? b = some block) (feeds : f.Feeds b t) :
      Skips f n (.inside b block.stmts.length) (.head t)

/-- The name is read before control goes on: by a statement, by a terminator, or by a merge on the
    edge that is taken. -/
inductive ReadAt (f : Function) (n : NameId) : Stage → Prop where
  | stmt {b : BlockId} {index : Nat} {stmt : Stmt} (hstmt : f.stmtAt? b index = some stmt)
      (used : n ∈ stmt.usedNames) : ReadAt f n (.inside b index)
  | terminator {b : BlockId} {block : Block} (hb : f.block? b = some block)
      (used : n ∈ block.terminator.usedNames) : ReadAt f n (.inside b block.stmts.length)
  | merge {b t : BlockId} {block : Block} (hb : f.block? b = some block) (feeds : f.Feeds b t)
      (reads : f.MergeReads b t n) : ReadAt f n (.inside b block.stmts.length)

/-- A path leads from the stage to a read of the name, and the name is not set before it. -/
def LiveAt (f : Function) (n : NameId) (p : Stage) : Prop :=
  ∃ q, ReflTransGen (f.Skips n) p q ∧ f.ReadAt n q

theorem ReadAt.liveAt (h : f.ReadAt n p) : f.LiveAt n p := ⟨p, .refl, h⟩

theorem LiveAt.step (h : f.LiveAt n q) (skips : f.Skips n p q) : f.LiveAt n p := by
  obtain ⟨r, way, read⟩ := h
  exact ⟨r, .head skips way, read⟩

/-- The name is read on an edge that leaves the block, or live behind it. -/
def LiveBehind (f : Function) (b : BlockId) (n : NameId) : Prop :=
  f.Carries b n ∨ ∃ t, f.Feeds b t ∧ f.LiveAt n (.head t)

theorem LiveBehind.liveAt (h : f.LiveBehind b n) (hb : f.block? b = some block) :
    f.LiveAt n (.inside b block.stmts.length) := by
  rcases h with ⟨t, feeds, reads⟩ | ⟨t, feeds, live⟩
  · exact (ReadAt.merge hb feeds reads).liveAt
  · exact live.step (.edge hb feeds)

/-- What the rest of a block reads first is live in front of it. -/
theorem liveAt_of_readsFirst (hb : f.block? b = some block) {index : Nat} {stmts : List Stmt}
    (rest : block.stmts.drop index = stmts) (inside : index ≤ block.stmts.length)
    (h : ReadsFirst n (n ∈ block.terminator.usedNames ∨ f.LiveBehind b n) stmts) :
    f.LiveAt n (.inside b index) := by
  induction stmts generalizing index with
  | nil =>
      have last : index = block.stmts.length :=
        Nat.le_antisymm inside (List.drop_eq_nil_iff.mp rest)
      subst last
      rcases h with used | behind
      · exact (ReadAt.terminator hb used).liveAt
      · exact behind.liveAt hb
  | cons stmt stmts ih =>
      have here : block.stmts[index]? = some stmt := by
        rw [← List.head?_drop, rest, List.head?_cons]
      have later : block.stmts.drop (index + 1) = stmts := by
        rw [← List.tail_drop, rest, List.tail_cons]
      have hstmt : f.stmtAt? b index = some stmt := stmtAt?_eq_some.mpr ⟨block, hb, here⟩
      rcases h with used | ⟨free, h⟩
      · exact (ReadAt.stmt hstmt used).liveAt
      · have bound := (List.getElem?_eq_some_iff.mp here).1
        exact (ih later bound h).step (.stmt hstmt free)

/-- What paths say solves the equations. -/
theorem liveSolution (f : Function) :
    f.LiveSolution (fun b n => f.LiveAt n (.head b)) f.LiveBehind where
  carried := fun _ _ => .inl
  next := fun _ t _ feeds live => .inr ⟨t, feeds, live⟩
  passing := by
    intro b n behind free
    have exists_ : ∃ block, f.block? b = some block := by
      rcases behind with ⟨_, ⟨block, hb, -⟩, -⟩ | ⟨_, ⟨block, hb, -⟩, -⟩
      · exact ⟨block, hb⟩
      · exact ⟨block, hb⟩
    obtain ⟨block, hb⟩ := exists_
    have free : n ∉ block.defs := fun member => free ⟨block, hb, member⟩
    rw [Block.defs, List.mem_append, List.mem_map, List.mem_filterMap] at free
    push Not at free
    have first : ReadsFirst n (n ∈ block.terminator.usedNames ∨ f.LiveBehind b n) block.stmts :=
      readsFirst_or.mpr (.inr ⟨free.2, behind⟩)
    exact (liveAt_of_readsFirst hb rfl (Nat.zero_le _) first).step (.merges hb free.1)
  reads := by
    rintro b n ⟨block, hb, free, first⟩
    exact (liveAt_of_readsFirst hb rfl (Nat.zero_le _) (readsFirst_or.mpr (.inl first))).step
      (.merges hb free)

/-- What the computed sets say at a stage. Inside a block it follows from the statements that are
    left and from the names live at the end. -/
def Marked (f : Function) (live : Liveness) (n : NameId) : Stage → Prop
  | .head b => live.atHead b n = true
  | .inside b index => ∀ block, f.block? b = some block →
      ReadsFirst n (n ∈ block.terminator.usedNames ∨ live.atEnd b n = true)
        (block.stmts.drop index)

variable {live : Liveness}

theorem ReadAt.marked (h : f.ReadAt n p) (stable : f.Stable live p.block) : f.Marked live n p := by
  cases h with
  | @stmt b index stmt hstmt used =>
      intro block hb
      obtain ⟨block', hb', here⟩ := stmtAt?_eq_some.mp hstmt
      cases hb.symm.trans hb'
      obtain ⟨inside, rfl⟩ := List.getElem?_eq_some_iff.mp here
      rw [List.drop_eq_getElem_cons inside]
      exact .inl used
  | @terminator b block hb used =>
      intro block' hb'
      cases hb.symm.trans hb'
      rw [List.drop_length]
      exact .inl used
  | @merge b t block hb feeds reads =>
      intro block' hb'
      cases hb.symm.trans hb'
      rw [List.drop_length]
      exact .inr (stable.ends n (.inl ⟨t, feeds, reads⟩))

/-- A mark at the next stage is a mark at this one if the name is not set in between. -/
theorem Skips.marked (h : f.Skips n p q) (stable : f.Stable live p.block)
    (growing : f.Growing live) (later : f.Marked live n q) : f.Marked live n p := by
  cases h with
  | @merges b block hb free =>
      refine stable.heads n ?_
      rcases readsFirst_or.mp (later block hb) with first | ⟨through, atEnd⟩
      · exact .inr ⟨block, hb, free, first⟩
      · refine .inl ⟨growing.ends b n atEnd, ?_⟩
        rintro ⟨block', hb', defined⟩
        cases hb.symm.trans hb'
        rw [Block.defs, List.mem_append, List.mem_map, List.mem_filterMap] at defined
        rcases defined with ⟨phi, hphi, same⟩ | ⟨stmt, hstmt, same⟩
        · exact free phi hphi same
        · exact through stmt hstmt same
  | @stmt b index stmt hstmt free =>
      intro block hb
      obtain ⟨block', hb', here⟩ := stmtAt?_eq_some.mp hstmt
      cases hb.symm.trans hb'
      obtain ⟨inside, rfl⟩ := List.getElem?_eq_some_iff.mp here
      rw [List.drop_eq_getElem_cons inside]
      exact .inr ⟨free, later block hb⟩
  | @edge b t block hb feeds =>
      intro block' hb'
      cases hb.symm.trans hb'
      rw [List.drop_length]
      exact .inr (stable.ends n (.inr ⟨t, feeds, later⟩))

theorem Skips.reachable (h : f.Skips n p q) (reached : f.Reachable p.block) :
    f.Reachable q.block := by
  cases h with
  | merges => exact reached
  | stmt => exact reached
  | edge hb feeds =>
      obtain ⟨passed, way⟩ := reached
      exact ⟨_, way.step_feeds feeds⟩

/-- Where a path says that a name is live, the computed sets say so. -/
theorem LiveAt.marked (h : f.LiveAt n p) (growing : f.Growing live)
    (stable : ∀ b, f.Reachable b → f.Stable live b) (reached : f.Reachable p.block) :
    f.Marked live n p := by
  obtain ⟨q, way, read⟩ := h
  induction way using ReflTransGen.head_induction_on with
  | refl => exact read.marked (stable _ reached)
  | head skips _ ih => exact skips.marked (stable _ reached) growing (ih (skips.reachable reached))

theorem onEdge_iff {e : Edge} :
    live.onEdge f e n = true ↔ f.MergeReads e.src e.dst n ∨ live.atHead e.dst n = true := by
  rw [Liveness.onEdge, Bool.or_eq_true, or_comm]
  simp only [MergeReads, Option.any_eq_true, List.any_eq_true, beq_iff_eq, exists_and_left]

/-- The rounds that compute liveness of a valid function end, and the result is exact. At the head
    of a block that is reached a name is live if and only if some path from there reaches a read of
    the name that no merge and no statement on the path sets before. On an edge that leaves such a
    block a name is live if and only if a merge takes it there or it is live at the head of the
    target. -/
theorem liveness_exact {f : Function} (valid : f.validate = .ok ()) :
    ∃ live, (∀ rounds, 2 * (f.blockCount * f.nameCount) < rounds →
        f.liveness? rounds = some live) ∧ f.liveness = live ∧
      (∀ b n, f.Reachable b → (live.atHead b n = true ↔ f.LiveAt n (.head b))) ∧
      ∀ id e n, f.edge? id = some e → f.Reachable e.src →
        (live.onEdge f e n = true ↔ f.MergeReads e.src e.dst n ∨ f.LiveAt n (.head e.dst)) := by
  have hf := valid_of_validate valid
  obtain ⟨live, found, growing, stable⟩ := hf.liveness?_spec
  have heads : ∀ b n, f.Reachable b → (live.atHead b n = true ↔ f.LiveAt n (.head b)) :=
    fun b n reached => ⟨(growing.least f.liveSolution).1 b n,
      fun path => path.marked growing stable reached⟩
  have computed : f.liveness = live := by
    rw [liveness, found _ (Nat.lt_succ_self _)]
    rfl
  refine ⟨live, found, computed, heads, fun id e n edge reached => ?_⟩
  obtain ⟨passed, way⟩ := reached
  have next : f.Reachable e.dst := ⟨_, way.step_feeds (feeds_of_edge? edge)⟩
  rw [onEdge_iff, heads _ n next]

end Function

/-- Counts a copy of `_0` down to zero and returns `_0`. -/
def countDown : Function where
  name := "countDown"
  names :=
    [ ⟨.int ⟨8, eight_bits⟩ .unsigned, .param 0 false⟩, ⟨.int ⟨8, eight_bits⟩ .unsigned, .defined⟩,
      ⟨.int ⟨8, eight_bits⟩ .unsigned, .defined⟩ ]
  blocks :=
    [ .ofTerminator (.jump 1),
      ⟨[⟨1, [⟨0, .name 0⟩, ⟨2, .name 2⟩]⟩], [], .branch ⟨.gt, .name 1, .const 0⟩ 2 3, [], false⟩,
      ⟨[], [.assign 2 (.binary .sub (.name 1) (.const 1))], .jump 1, [], false⟩,
      .ofTerminator (.return (some (.name 0))) ]

/-- The returned name is live in the loop. The next value of the counter is live on the back edge,
    where the merge takes it, and nowhere else. -/
theorem liveness_exact_countDown :
    countDown.validate = .ok () ∧ countDown.LiveAt 0 (.head 2) ∧ ¬ countDown.LiveAt 2 (.head 1) ∧
      countDown.liveness.onEdge countDown ⟨2, 1, {}⟩ 2 = true := by
  have valid : countDown.validate = .ok () := rfl
  obtain ⟨live, -, same, heads, edges⟩ := Function.liveness_exact valid
  have entry : countDown.Reachable 1 := ⟨_, .step .entry rfl (by decide)⟩
  have body : countDown.Reachable 2 := by
    obtain ⟨_, way⟩ := entry
    exact ⟨_, way.step rfl (by decide)⟩
  subst same
  refine ⟨valid, (heads 2 0 body).mp (by cbv), ?_, ?_⟩
  · have dead : countDown.liveness.atHead 1 2 = false := by cbv
    rw [← heads 1 2 entry, dead]
    exact Bool.false_ne_true
  · refine (edges 3 _ 2 rfl body).mpr (.inl ?_)
    exact ⟨_, _, rfl, List.mem_singleton.mpr rfl, rfl⟩

end RangeFlow
