import Mathlib.Data.Finset.Prod
import RangeFlow.Proofs.BlockNames
import RangeFlow.Proofs.DefinitionWalks

/-! # Rounds of liveness

A visit recomputes the names live at the two ends of a block. Live names are never lost, since what
they are computed from only grows, so each round with a change makes more names live and the rounds
end. What they end with is the least solution: a name is live only where every solution of the
equations has it, and in the blocks that are visited the equations hold.
-/

namespace RangeFlow

namespace Liveness

/-- Everything live in the first is live in the second. -/
structure Le (a b : Liveness) : Prop where
  heads : ∀ block n, a.atHead block n = true → b.atHead block n = true
  ends : ∀ block n, a.atEnd block n = true → b.atEnd block n = true

theorem Le.refl (a : Liveness) : a.Le a := ⟨fun _ _ => id, fun _ _ => id⟩

theorem Le.trans {a b c : Liveness} (first : a.Le b) (second : b.Le c) : a.Le c :=
  ⟨fun block n live => second.heads block n (first.heads block n live),
    fun block n live => second.ends block n (first.ends block n live)⟩

/-- There are sets for so many blocks and names. -/
structure Sized (live : Liveness) (blocks names : Nat) : Prop where
  heads : BitSet.Rows live.heads blocks names fun b n => live.atHead b n = true
  ends : BitSet.Rows live.ends blocks names fun b n => live.atEnd b n = true

variable {live next : Liveness} {blocks names : Nat} {M E : BlockId → NameId → Prop}

/-- What rows hold is what is live. -/
theorem atHead_iff (h : BitSet.Rows live.heads blocks names M) {b : BlockId} (n : NameId)
    (inside : b < blocks) : live.atHead b n = true ↔ M b n := by
  obtain ⟨s, found, holds⟩ := h.get inside
  rw [atHead, found]
  exact holds.contains n

theorem atEnd_iff (h : BitSet.Rows live.ends blocks names M) {b : BlockId} (n : NameId)
    (inside : b < blocks) : live.atEnd b n = true ↔ M b n := by
  obtain ⟨s, found, holds⟩ := h.get inside
  rw [atEnd, found]
  exact holds.contains n

theorem Sized.of_rows (heads : BitSet.Rows live.heads blocks names M)
    (ends : BitSet.Rows live.ends blocks names E) : live.Sized blocks names where
  heads := ⟨heads.size, fun b s found => ⟨(heads.holds b s found).capacity, fun n => by
    rw [atHead, found, Option.any_some]⟩⟩
  ends := ⟨ends.size, fun b s found => ⟨(ends.holds b s found).capacity, fun n => by
    rw [atEnd, found, Option.any_some]⟩⟩

/-- A name is live at the head of blocks that exist only. -/
theorem Sized.lt_of_atHead (h : live.Sized blocks names) {b : BlockId} {n : NameId}
    (hn : live.atHead b n = true) : b < blocks ∧ n < names := by
  obtain ⟨s, found, contains⟩ := (Option.any_eq_true _ _).mp hn
  have capacity := (h.heads.holds b s found).capacity
  exact ⟨h.heads.size ▸ (Array.getElem?_eq_some_iff.mp found).1,
    capacity ▸ BitSet.lt_capacity contains⟩

theorem Sized.lt_of_atEnd (h : live.Sized blocks names) {b : BlockId} {n : NameId}
    (hn : live.atEnd b n = true) : b < blocks ∧ n < names := by
  obtain ⟨s, found, contains⟩ := (Option.any_eq_true _ _).mp hn
  have capacity := (h.ends.holds b s found).capacity
  exact ⟨h.ends.size ▸ (Array.getElem?_eq_some_iff.mp found).1,
    capacity ▸ BitSet.lt_capacity contains⟩

/-- The pairs of a block and a name that is live at its head. -/
def headPairs (live : Liveness) (blocks names : Nat) : Finset (BlockId × NameId) :=
  (Finset.range blocks ×ˢ Finset.range names).filter fun p => live.atHead p.1 p.2 = true

/-- The pairs of a block and a name that is live at its end. -/
def endPairs (live : Liveness) (blocks names : Nat) : Finset (BlockId × NameId) :=
  (Finset.range blocks ×ˢ Finset.range names).filter fun p => live.atEnd p.1 p.2 = true

/-- How many names are live, counted at the ends of all blocks. -/
def total (live : Liveness) (blocks names : Nat) : Nat :=
  (live.headPairs blocks names).card + (live.endPairs blocks names).card

theorem total_le (live : Liveness) (blocks names : Nat) :
    live.total blocks names ≤ 2 * (blocks * names) := by
  have all : (Finset.range blocks ×ˢ Finset.range names).card = blocks * names := by
    rw [Finset.card_product, Finset.card_range, Finset.card_range]
  have heads : (live.headPairs blocks names).card ≤ blocks * names :=
    all ▸ Finset.card_filter_le ..
  have ends : (live.endPairs blocks names).card ≤ blocks * names :=
    all ▸ Finset.card_filter_le ..
  rw [total]
  omega

theorem Le.headPairs (le : live.Le next) :
    live.headPairs blocks names ⊆ next.headPairs blocks names :=
  Finset.monotone_filter_right _ fun p _ => le.heads p.1 p.2

theorem Le.endPairs (le : live.Le next) :
    live.endPairs blocks names ⊆ next.endPairs blocks names :=
  Finset.monotone_filter_right _ fun p _ => le.ends p.1 p.2

theorem Le.total_le (le : live.Le next) :
    live.total blocks names ≤ next.total blocks names :=
  Nat.add_le_add (Finset.card_le_card le.headPairs) (Finset.card_le_card le.endPairs)

/-- If more is live, then at more places. -/
theorem Le.total_lt (le : live.Le next) (hl : live.Sized blocks names)
    (hn : next.Sized blocks names) (other : next ≠ live) :
    live.total blocks names < next.total blocks names := by
  refine Nat.lt_of_not_le fun notMore => other ?_
  have heads : (live.headPairs blocks names).card ≤ (next.headPairs blocks names).card :=
    Finset.card_le_card le.headPairs
  have ends : (live.endPairs blocks names).card ≤ (next.endPairs blocks names).card :=
    Finset.card_le_card le.endPairs
  rw [total, total] at notMore
  have sameHeads : live.headPairs blocks names = next.headPairs blocks names :=
    Finset.eq_of_subset_of_card_le le.headPairs (by omega)
  have sameEnds : live.endPairs blocks names = next.endPairs blocks names :=
    Finset.eq_of_subset_of_card_le le.endPairs (by omega)
  have headsBack : ∀ b n, next.atHead b n = true ↔ live.atHead b n = true := by
    refine fun b n => ⟨fun here => ?_, le.heads b n⟩
    obtain ⟨hb, hn⟩ := hn.lt_of_atHead here
    have member : (b, n) ∈ next.headPairs blocks names := by simp [Liveness.headPairs, hb, hn, here]
    rw [← sameHeads] at member
    exact (Finset.mem_filter.mp member).2
  have endsBack : ∀ b n, next.atEnd b n = true ↔ live.atEnd b n = true := by
    refine fun b n => ⟨fun here => ?_, le.ends b n⟩
    obtain ⟨hb, hn⟩ := hn.lt_of_atEnd here
    have member : (b, n) ∈ next.endPairs blocks names := by simp [Liveness.endPairs, hb, hn, here]
    rw [← sameEnds] at member
    exact (Finset.mem_filter.mp member).2
  have sameHeads := (hn.heads.congr headsBack).unique hl.heads
  have sameEnds := (hn.ends.congr endsBack).unique hl.ends
  cases next
  cases live
  exact congrArg₂ Liveness.mk sameHeads sameEnds

end Liveness

namespace Function

/-- What is live at the end of a block by what is live at the heads of its successors. -/
def EndNames (f : Function) (live : Liveness) (b : BlockId) (n : NameId) : Prop :=
  f.Carries b n ∨ ∃ t, f.Feeds b t ∧ live.atHead t n = true

/-- What is live at the head of a block by what is live at the heads of its successors. -/
def HeadNames (f : Function) (live : Liveness) (b : BlockId) (n : NameId) : Prop :=
  (f.EndNames live b n ∧ ¬ f.DefinesInside b n) ∨ f.ReadsInside b n

variable {f : Function} {flow : NameFlow} {live next : Liveness} {b : BlockId} {n : NameId}

theorem EndNames.mono (h : f.EndNames live b n) (le : live.Le next) : f.EndNames next b n :=
  h.imp_right fun ⟨t, feeds, here⟩ => ⟨t, feeds, le.heads t n here⟩

theorem HeadNames.mono (h : f.HeadNames live b n) (le : live.Le next) : f.HeadNames next b n :=
  h.imp_left fun ⟨ends, free⟩ => ⟨ends.mono le, free⟩

/-- Nothing new is live in the block. -/
structure Stable (f : Function) (live : Liveness) (b : BlockId) : Prop where
  ends : ∀ n, f.EndNames live b n → live.atEnd b n = true
  heads : ∀ n, f.HeadNames live b n → live.atHead b n = true

/-- Names that may be said to be live: whatever the equations ask for is there. -/
structure LiveSolution (f : Function) (heads ends : BlockId → NameId → Prop) : Prop where
  carried : ∀ b n, f.Carries b n → ends b n
  next : ∀ b t n, f.Feeds b t → heads t n → ends b n
  passing : ∀ b n, ends b n → ¬ f.DefinesInside b n → heads b n
  reads : ∀ b n, f.ReadsInside b n → heads b n

/-- Between two visits everything live is still there when it is computed anew, and there in every
    solution. -/
structure Growing (f : Function) (live : Liveness) : Prop where
  sized : live.Sized f.blockCount f.nameCount
  heads : ∀ b n, live.atHead b n = true → f.HeadNames live b n
  ends : ∀ b n, live.atEnd b n = true → f.EndNames live b n
  least : ∀ {heads ends : BlockId → NameId → Prop}, f.LiveSolution heads ends →
    (∀ b n, live.atHead b n = true → heads b n) ∧ ∀ b n, live.atEnd b n = true → ends b n

/-- The names of the block have been computed anew, and nothing else has changed. -/
structure Updated (f : Function) (live : Liveness) (b : BlockId) (next : Liveness) : Prop where
  sized : next.Sized f.blockCount f.nameCount
  heads : ∀ c n, next.atHead c n = true ↔
    if c = b then f.HeadNames live b n else live.atHead c n = true
  ends : ∀ c n, next.atEnd c n = true ↔
    if c = b then f.EndNames live b n else live.atEnd c n = true

namespace Updated

theorem of_rows (sized : live.Sized f.blockCount f.nameCount) (inside : b < f.blockCount)
    (heads : BitSet.Rows next.heads f.blockCount f.nameCount fun c n =>
      if c = b then f.HeadNames live b n else live.atHead c n = true)
    (ends : BitSet.Rows next.ends f.blockCount f.nameCount fun c n =>
      if c = b then f.EndNames live b n else live.atEnd c n = true) :
    f.Updated live b next := by
  have sized' := Liveness.Sized.of_rows heads ends
  refine ⟨sized', fun c n => ?_, fun c n => ?_⟩
  · by_cases exists_ : c < f.blockCount
    · exact Liveness.atHead_iff heads n exists_
    · rw [if_neg (by rintro rfl; exact exists_ inside)]
      exact ⟨fun here => absurd (sized'.lt_of_atHead here).1 exists_,
        fun here => absurd (sized.lt_of_atHead here).1 exists_⟩
  · by_cases exists_ : c < f.blockCount
    · exact Liveness.atEnd_iff ends n exists_
    · rw [if_neg (by rintro rfl; exact exists_ inside)]
      exact ⟨fun here => absurd (sized'.lt_of_atEnd here).1 exists_,
        fun here => absurd (sized.lt_of_atEnd here).1 exists_⟩

theorem le (h : f.Updated live b next) (growing : f.Growing live) : live.Le next := by
  refine ⟨fun c n here => (h.heads c n).mpr ?_, fun c n here => (h.ends c n).mpr ?_⟩
  · split
    · next same => exact same ▸ growing.heads c n here
    · exact here
  · split
    · next same => exact same ▸ growing.ends c n here
    · exact here

theorem growing (h : f.Updated live b next) (growing : f.Growing live) : f.Growing next where
  sized := h.sized
  heads := by
    intro c n here
    have before := (h.heads c n).mp here
    split at before
    · next same => exact same ▸ before.mono (h.le growing)
    · exact (growing.heads c n before).mono (h.le growing)
  ends := by
    intro c n here
    have before := (h.ends c n).mp here
    split at before
    · next same => exact same ▸ before.mono (h.le growing)
    · exact (growing.ends c n before).mono (h.le growing)
  least := by
    intro headsOf endsOf solution
    obtain ⟨headsLeast, endsLeast⟩ := growing.least solution
    have atEndOf : ∀ n, f.EndNames live b n → endsOf b n := by
      rintro n (carried | ⟨t, feeds, here⟩)
      · exact solution.carried b n carried
      · exact solution.next b t n feeds (headsLeast t n here)
    refine ⟨fun c n here => ?_, fun c n here => ?_⟩
    · have before := (h.heads c n).mp here
      split at before
      · next same =>
          subst same
          rcases before with ⟨passing, free⟩ | reads
          · exact solution.passing c n (atEndOf n passing) free
          · exact solution.reads c n reads
      · exact headsLeast c n before
    · have before := (h.ends c n).mp here
      split at before
      · next same => exact same ▸ atEndOf n before
      · exact endsLeast c n before

theorem stable (h : f.Updated live b live) : f.Stable live b where
  ends := fun n new => (h.ends b n).mpr (by rw [if_pos rfl]; exact new)
  heads := fun n new => (h.heads b n).mpr (by rw [if_pos rfl]; exact new)

end Updated

end Function

namespace NameFlow

/-- The sets from which liveness is computed hold what the blocks of the function do. -/
structure Describes (flow : NameFlow) (f : Function) : Prop where
  size : flow.blocks.size = f.blockCount
  blocks : ∀ b (sets : BlockNames), flow.blocks[b]? = some sets →
    sets.Holds f.nameCount (f.ReadsInside b) (f.DefinesInside b)
  carried : BitSet.Rows flow.carried f.blockCount f.nameCount f.Carries
  succs : ∀ b < f.blockCount, ∀ t, t ∈ flow.succs.getD b [] ↔ f.Feeds b t

variable {f : Function} {flow : NameFlow} {live : Liveness} {b : BlockId}

theorem endOf_holds (h : flow.Describes f) (hf : f.Valid)
    (sized : live.Sized f.blockCount f.nameCount) (inside : b < f.blockCount) :
    ∃ s, flow.endOf live b = some s ∧ s.Holds f.nameCount (f.EndNames live b) := by
  obtain ⟨carried, found, holds⟩ := h.carried.get inside
  have targets : ∀ t ∈ flow.succs.getD b [], t < f.blockCount := fun t ht =>
    (hf.feeds_lt ((h.succs b inside t).mp ht)).2
  have same : ∀ n, f.EndNames live b n ↔ f.Carries b n ∨
      ∃ t ∈ flow.succs.getD b [], live.atHead t n = true := by
    intro n
    simp only [Function.EndNames, h.succs b inside]
  suffices union : ∀ (l : List BlockId) (s : BitSet) (P : NameId → Prop), s.Holds f.nameCount P →
      (∀ t ∈ l, t < f.blockCount) →
      ∃ r, l.foldlM (fun set next => do
          let head ← live.heads[next]?
          return (← set.union? head).2) s = some r ∧
        r.Holds f.nameCount fun n => P n ∨ ∃ t ∈ l, live.atHead t n = true by
    obtain ⟨r, run, hr⟩ := union _ carried _ holds targets
    refine ⟨r, ?_, hr.congr fun n => (same n).symm⟩
    rw [endOf, found]
    exact run
  intro l
  induction l with
  | nil => exact fun s P hs _ => ⟨s, rfl, hs.congr fun n => by simp⟩
  | cons t l ih =>
      intro s P hs inside
      obtain ⟨here, later⟩ := List.forall_mem_cons.mp inside
      obtain ⟨head, hhead, holds⟩ := sized.heads.get here
      obtain ⟨_, u, hu, holdsU⟩ := hs.union? holds
      obtain ⟨r, run, hr⟩ := ih u _ holdsU later
      refine ⟨r, ?_, hr.congr fun n => ?_⟩
      · rw [List.foldlM_cons, hhead]
        simp only [Option.bind_eq_bind, Option.bind_some, hu]
        exact run
      · simp only [or_assoc, List.mem_cons, exists_eq_or_imp]

theorem headOf_holds (h : flow.Describes f) (inside : b < f.blockCount) {s : BitSet}
    {P : NameId → Prop} (hs : s.Holds f.nameCount P) :
    ∃ r, flow.headOf b s = some r ∧
      r.Holds f.nameCount fun n => (P n ∧ ¬ f.DefinesInside b n) ∨ f.ReadsInside b n := by
  have found := Array.getElem?_eq_getElem (h.size ▸ inside)
  have holds := h.blocks b _ found
  obtain ⟨_, passing, hpassing, holdsP⟩ := hs.diff? holds.defs
  obtain ⟨_, r, hr, holdsR⟩ := holdsP.union? holds.reads
  refine ⟨r, ?_, holdsR⟩
  rw [headOf, found]
  simp only [Option.bind_eq_bind, Option.bind_some, hpassing, hr]
  rfl

/-- A visit gives a result: the names of the block, computed anew. It notes exactly if that is a
    change. -/
theorem visit_eq (h : flow.Describes f) (hf : f.Valid)
    (sized : live.Sized f.blockCount f.nameCount) (inside : b < f.blockCount) (flag : Bool) :
    ∃ next changed, flow.visit (live, flag) b = some (next, flag || changed) ∧
      (changed = false ↔ next = live) ∧ f.Updated live b next := by
  obtain ⟨atEnd, hend, holdsEnd⟩ := endOf_holds h hf sized inside
  obtain ⟨atHead, hhead, holdsHead⟩ := headOf_holds h inside holdsEnd
  have headInside : b < live.heads.size := sized.heads.size.symm ▸ inside
  have endInside : b < live.ends.size := sized.ends.size.symm ▸ inside
  refine ⟨_, _, by rw [visit, hend, Option.bind_eq_bind, Option.bind_some, hhead]; rfl, ?_,
    .of_rows sized inside (sized.heads.set holdsHead) (sized.ends.set holdsEnd)⟩
  rw [Bool.not_eq_false', Bool.and_eq_true, beq_iff_eq, beq_iff_eq]
  constructor
  · rintro ⟨sameEnd, sameHead⟩
    have ends : live.ends.setIfInBounds b atEnd = live.ends := by grind
    have heads : live.heads.setIfInBounds b atHead = live.heads := by grind
    rw [ends, heads]
  · intro same
    have ends := congrArg Liveness.ends same
    have heads := congrArg Liveness.heads same
    simp only at ends heads
    rw [← ends, ← heads]
    simp [headInside, endInside]

/-- What is live stays live in a visit. The visit notes no change exactly if it makes none, and then
    nothing new is live in the block. -/
theorem visit_spec (h : flow.Describes f) (hf : f.Valid) (growing : f.Growing live)
    (inside : b < f.blockCount) (flag : Bool) :
    ∃ next changed, flow.visit (live, flag) b = some (next, flag || changed) ∧ f.Growing next ∧
      live.Le next ∧ (changed = false → next = live ∧ f.Stable live b) ∧
      (changed = true → next ≠ live) := by
  obtain ⟨next, changed, run, change, updated⟩ := visit_eq h hf growing.sized inside flag
  refine ⟨next, changed, run, updated.growing growing, updated.le growing, fun unchanged => ?_, ?_⟩
  · have same := change.mp unchanged
    subst same
    exact ⟨rfl, updated.stable⟩
  · rintro rfl same
    exact absurd (change.mpr same) (by decide)

/-- What is live stays live in a round. The round notes a change only if more is live after it, and
    without a change nothing new is live in the blocks. -/
theorem round_spec (h : flow.Describes f) (hf : f.Valid) {order : List BlockId}
    (growing : f.Growing live) (inside : ∀ b ∈ order, b < f.blockCount) (flag : Bool) :
    ∃ next changed, order.foldlM flow.visit (live, flag) = some (next, flag || changed) ∧
      f.Growing next ∧ live.Le next ∧
      (changed = false → next = live ∧ ∀ b ∈ order, f.Stable live b) ∧
      (changed = true →
        live.total f.blockCount f.nameCount < next.total f.blockCount f.nameCount) := by
  induction order generalizing live flag with
  | nil =>
      refine ⟨live, false, by simp, growing, .refl live, fun _ => ⟨rfl, ?_⟩, nofun⟩
      exact List.forall_mem_nil _
  | cons b rest ih =>
      obtain ⟨here, later⟩ := List.forall_mem_cons.mp inside
      obtain ⟨middle, first, visited, growing', le, stays, moves⟩ :=
        visit_spec h hf growing here flag
      obtain ⟨next, second, run, growing'', le', stays', moves'⟩ :=
        ih growing' later (flag || first)
      refine ⟨next, first || second, ?_, growing'', le.trans le', fun unchanged => ?_,
        fun changed => ?_⟩
      · rw [List.foldlM_cons, visited, Option.bind_eq_bind, Option.bind_some, run, Bool.or_assoc]
      · obtain ⟨unchangedHere, unchangedLater⟩ := Bool.or_eq_false_iff.mp unchanged
        obtain ⟨same, stable⟩ := stays unchangedHere
        subst same
        obtain ⟨same, stableLater⟩ := stays' unchangedLater
        exact ⟨same, List.forall_mem_cons.mpr ⟨stable, stableLater⟩⟩
      · rcases (Bool.or_eq_true _ _).mp changed with changed | changed
        · exact Nat.lt_of_lt_of_le (le.total_lt growing.sized growing'.sized (moves changed))
            le'.total_le
        · exact Nat.lt_of_le_of_lt le.total_le (moves' changed)

/-- The rounds end, and nothing new is live in the blocks that they visit. -/
theorem settle_spec (h : flow.Describes f) (hf : f.Valid) {order : List BlockId}
    (growing : f.Growing live) (inside : ∀ b ∈ order, b < f.blockCount) :
    ∃ final, (∀ rounds, 2 * (f.blockCount * f.nameCount) <
        rounds + live.total f.blockCount f.nameCount →
          flow.settle order rounds live = some final) ∧
      f.Growing final ∧ ∀ b ∈ order, f.Stable final b := by
  induction left : 2 * (f.blockCount * f.nameCount) - live.total f.blockCount f.nameCount
    using Nat.strongRecOn generalizing live with
  | ind i ih =>
      have bound := live.total_le f.blockCount f.nameCount
      obtain ⟨next, changed, run, growing', le, stays, moves⟩ :=
        round_spec h hf growing inside false
      cases changed with
      | false =>
          obtain ⟨same, stable⟩ := stays rfl
          subst same
          refine ⟨next, fun rounds enough => ?_, growing, stable⟩
          obtain ⟨rounds, rfl⟩ : ∃ k, rounds = k + 1 := ⟨rounds - 1, by omega⟩
          rw [settle, run]
          rfl
      | true =>
          have more := moves rfl
          have most := next.total_le f.blockCount f.nameCount
          obtain ⟨final, ends, growing'', stable⟩ := ih _ (by omega) growing' rfl
          refine ⟨final, fun rounds enough => ?_, growing'', stable⟩
          obtain ⟨rounds, rfl⟩ : ∃ k, rounds = k + 1 := ⟨rounds - 1, by omega⟩
          rw [settle, run]
          exact ends rounds (by omega)

end NameFlow

namespace Function

variable {f : Function}

/-- In a valid function the sets from which liveness is computed exist and hold what the blocks
    do. -/
theorem Valid.nameFlow_describes (hf : f.Valid) :
    ∃ flow, f.nameFlow = some flow ∧ flow.Describes f := by
  have blocks : ∀ block ∈ f.blocks, ∃ sets, BlockNames.ofBlock f.nameCount block = some sets ∧
      BlockNames.ofBlock f.nameCount block = some sets := by
    intro block member
    obtain ⟨b, hb⟩ := List.getElem?_of_mem member
    obtain ⟨sets, found, -⟩ := hf.ofBlock_holds hb
    exact ⟨sets, found, found⟩
  obtain ⟨sets, foundBlocks, each⟩ := exists_mapM blocks
  obtain ⟨carried, foundCarried, rows⟩ := hf.carriedNames_rows
  refine ⟨_, by rw [nameFlow, foundBlocks, foundCarried]; rfl, ?_, ?_, rows, ?_⟩
  · exact each.length_eq.symm
  · intro b s found
    have found : sets[b]? = some s := by simpa using found
    obtain ⟨inSets, rfl⟩ := List.getElem?_eq_some_iff.mp found
    have inside : b < f.blocks.length := each.length_eq ▸ inSets
    have here : f.block? b = some f.blocks[b] := List.getElem?_eq_getElem inside
    obtain ⟨s, computed, holds⟩ := hf.ofBlock_holds here
    have same : BlockNames.ofBlock f.nameCount f.blocks[b] = some sets[b] :=
      List.Forall₂.get each inside inSets
    rw [computed] at same
    cases same
    exact holds
  · intro b inside t
    rw [Graph.table_getD (g := f.graph) inside, Graph.mem_succs, hf.mem_graph_edges]
    rfl

/-- Liveness of a valid function is computed in a bounded number of rounds. What is live is live in
    every solution, and in the blocks that are reached nothing more is live. -/
theorem Valid.liveness?_spec (hf : f.Valid) :
    ∃ live, (∀ rounds, 2 * (f.blockCount * f.nameCount) < rounds →
        f.liveness? rounds = some live) ∧
      f.Growing live ∧ ∀ b, f.Reachable b → f.Stable live b := by
  obtain ⟨flow, found, h⟩ := hf.nameFlow_describes
  have inside : ∀ b ∈ f.reversePostorder.reverse, b < f.blockCount := by
    intro b member
    have reached := hf.mem_reversePostorder.mp (List.mem_reverse.mp member)
    exact (hf.way_nil_iff.mpr reached).lt_size
  have heads : BitSet.Rows (flow.blocks.map BlockNames.reads) f.blockCount f.nameCount
      f.ReadsInside := by
    refine ⟨by rw [Array.size_map, h.size], fun b s hs => ?_⟩
    rw [Array.getElem?_map] at hs
    obtain ⟨sets, hsets, rfl⟩ := Option.map_eq_some_iff.mp hs
    exact (h.blocks b sets hsets).reads
  let start : Liveness := { heads := flow.blocks.map BlockNames.reads, ends := flow.carried }
  have sized : start.Sized f.blockCount f.nameCount := .of_rows heads h.carried
  have reads : ∀ b n, start.atHead b n = true → f.ReadsInside b n := fun b n here =>
    (Liveness.atHead_iff heads n (sized.lt_of_atHead here).1).mp here
  have carried : ∀ b n, start.atEnd b n = true → f.Carries b n := fun b n here =>
    (Liveness.atEnd_iff h.carried n (sized.lt_of_atEnd here).1).mp here
  have growing : f.Growing start :=
    ⟨sized, fun b n here => .inr (reads b n here), fun b n here => .inl (carried b n here),
      fun solution => ⟨fun b n here => solution.reads b n (reads b n here),
        fun b n here => solution.carried b n (carried b n here)⟩⟩
  obtain ⟨final, run, growing, stable⟩ := NameFlow.settle_spec h hf growing inside
  refine ⟨final, fun rounds enough => ?_, growing, fun b reached => stable b ?_⟩
  · rw [liveness?, found]
    exact run rounds (Nat.lt_add_right _ enough)
  · exact List.mem_reverse.mpr (hf.mem_reversePostorder.mpr reached)

end Function

end RangeFlow
