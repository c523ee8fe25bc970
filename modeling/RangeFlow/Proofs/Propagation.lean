import RangeFlow.Proofs.Visits
import RangeFlow.Proofs.Worklist

/-! # Runs of the propagation

What a visit keeps is kept by the visit to a block, by the work on a name, and so by every step. A
run that comes to an end by itself has nothing left on its work lists, so every place of a block
that can be entered is stable in its last state.
-/

namespace RangeFlow.Engine

variable {en : Engine} {seen : EngineState → Prop} {s s' : EngineState} {due due' : Site → Prop}
  {entered entered' : BlockId → Prop}

/-- What holds between visits: the places in `due` have had their visit, and an edge that can be
    taken leads to a block in `entered`, unless it waits. -/
structure Kept (en : Engine) (seen : EngineState → Prop) (due : Site → Prop)
    (entered : BlockId → Prop) (s : EngineState) : Prop where
  names : s.table.names = (RangeTable.ofFunction en.f en.config).names
  nameCount : s.queued.length = en.f.nameCount
  edgeCount : s.executableEdges.length = en.f.edges.length
  blockCount : s.executableBlocks.length = en.f.blockCount
  waiting : ∀ n, s.isQueued n = true → n ∈ s.varyingWork ∨ n ∈ s.changedWork
  settled : ∀ x ∈ s.settled, en.Done s x
  visited : ∀ x, due x → en.Stable seen s x ∨ en.Pending s x
  followed : ∀ id e, en.f.edge? id = some e → s.edgeExecutable id = true →
    id ∈ s.edgeWork ∨ entered e.dst

namespace Kept

theorem mono (h : en.Kept seen due entered s) (less : ∀ x, due' x → due x ∨ en.Stable seen s x)
    (more : ∀ d, entered d → entered' d) : en.Kept seen due' entered' s :=
  { h with
    visited := fun x hx => (less x hx).elim (h.visited x) .inl
    followed := fun id e he executable => (h.followed id e he executable).imp_right (more e.dst) }

theorem advance (h : en.Kept seen due entered s) (onward : s.Advance s')
    (settled : ∀ x ∈ s'.settled, en.Done s' x)
    (visited : ∀ x, due' x → en.Stable seen s' x ∨ en.Pending s' x) :
    en.Kept seen due' entered s' where
  names := onward.names.trans h.names
  nameCount := onward.nameCount.trans h.nameCount
  edgeCount := onward.edgeCount.trans h.edgeCount
  blockCount := (congrArg List.length onward.blocks).trans h.blockCount
  waiting := onward.waiting h.waiting
  settled := settled
  visited := visited
  followed := by
    intro id e he executable
    rcases onward.found id executable with before | waits
    · exact (h.followed id e he before).imp_left (onward.edgeWork id)
    · exact .inl waits

theorem blocks (h : en.Kept seen due entered s) (blocks : List Bool)
    (length : blocks.length = en.f.blockCount) :
    en.Kept seen due entered { s with executableBlocks := blocks } :=
  { h with
    blockCount := length
    settled := fun x hx => by cases x <;> exact h.settled _ hx
    visited := by
      intro x hx
      rcases h.visited x hx with stable | pending
      · left
        cases x <;> exact stable
      · right
        cases pending with
        | name reads waits => exact .name reads waits
        | edge waits he => exact .edge waits he }

/-- A visit adds its place to those that are due. -/
theorem simulate (h : en.Kept seen due entered s) (hf : en.f.Valid) (now : seen s) (site : Site) :
    s.Advance (en.simulate s site) ∧
      en.Kept seen (fun x => due x ∨ x = site) entered (en.simulate s site) := by
  have visit := simulate_simulated hf now h.nameCount h.edgeCount h.settled site
  refine ⟨visit.onward, h.advance visit.onward visit.settled ?_⟩
  intro x hx
  by_cases same : x = site
  · rw [same]
    exact visit.stable
  · rcases h.visited x (hx.resolve_right same) with stable | pending
    · refine Stable.advance hf h.nameCount visit.onward (fun n sets => ?_) stable
      exact Classical.byContradiction fun differs => same (sets.unique hf (visit.only n differs))
    · exact .inr (pending.advance visit.onward)

theorem foldl_addEdge (h : en.Kept seen due entered s) (hf : en.f.Valid) (edges : List EdgeId) :
    en.Kept seen due entered (edges.foldl EngineState.addEdge s) := by
  have onward := s.foldl_addEdge_advance edges
  obtain ⟨table, settled⟩ := s.foldl_addEdge_frame edges
  refine h.advance onward ?_ ?_
  · intro x hx
    rw [settled] at hx
    exact (h.settled x hx).advance onward
  · intro x hx
    rcases h.visited x hx with stable | pending
    · exact Stable.advance hf h.nameCount onward (fun n _ => by rw [table]) stable
    · exact .inr (pending.advance onward)

/-- The same for a list of places, of which only some are visited. -/
theorem foldl_simulate_where (h : en.Kept seen due entered s) (hf : en.f.Valid)
    (guard : EngineState → Site → Bool)
    (fixed : ∀ {s s' : EngineState}, s.Advance s' → guard s' = guard s) (sites : List Site)
    (shown : ∀ t ∈ sites.scanl (fun s x => if guard s x then en.simulate s x else s) s, seen t) :
    s.Advance (sites.foldl (fun s x => if guard s x then en.simulate s x else s) s) ∧
      en.Kept seen (fun x => due x ∨ (x ∈ sites ∧ guard s x = true)) entered
        (sites.foldl (fun s x => if guard s x then en.simulate s x else s) s) := by
  induction sites generalizing s due with
  | nil => exact ⟨.refl s, h.mono (fun x hx => .inl (by simpa using hx)) fun _ hd => hd⟩
  | cons site rest ih =>
      rw [List.scanl_cons] at shown
      have now := shown s (List.mem_cons_self ..)
      replace shown := fun t ht => shown t (List.mem_cons_of_mem s ht)
      by_cases chosen : guard s site = true
      · simp only [chosen, if_true] at shown
        obtain ⟨first, kept⟩ := h.simulate hf now site
        obtain ⟨onward, kept⟩ := ih kept shown
        simp only [List.foldl_cons, chosen, if_true]
        refine ⟨first.trans onward, kept.mono (fun x hx => .inl ?_) fun _ hd => hd⟩
        rw [fixed first]
        rcases hx with hx | ⟨hx, holds⟩
        · exact .inl (.inl hx)
        · rcases List.mem_cons.mp hx with rfl | hx
          · exact .inl (.inr rfl)
          · exact .inr ⟨hx, holds⟩
      · simp only [chosen] at shown
        obtain ⟨onward, kept⟩ := ih h shown
        simp only [List.foldl_cons, chosen]
        refine ⟨onward, kept.mono (fun x hx => .inl ?_) fun _ hd => hd⟩
        rcases hx with hx | ⟨hx, holds⟩
        · exact .inl hx
        · rcases List.mem_cons.mp hx with rfl | hx
          · exact absurd holds chosen
          · exact .inr ⟨hx, holds⟩

theorem foldl_simulate (h : en.Kept seen due entered s) (hf : en.f.Valid) (count : Nat)
    (place : Nat → Site)
    (shown : ∀ t ∈ (List.range count).scanl (fun s i => en.simulate s (place i)) s, seen t) :
    s.Advance ((List.range count).foldl (fun s i => en.simulate s (place i)) s) ∧
      en.Kept seen (fun x => due x ∨ ∃ i < count, x = place i) entered
        ((List.range count).foldl (fun s i => en.simulate s (place i)) s) := by
  have all := h.foldl_simulate_where hf (fun _ _ => true) (fun _ => rfl)
    ((List.range count).map place) (by simpa only [if_true, List.scanl_map] using shown)
  simp only [if_true, List.foldl_map] at all
  refine ⟨all.1, all.2.mono (fun x hx => .inl (hx.imp_right ?_)) fun _ hd => hd⟩
  rintro ⟨i, hi, rfl⟩
  exact ⟨List.mem_map_of_mem (List.mem_range.mpr hi), trivial⟩

/-- An edge that is taken from its work list no longer keeps the merges of its target waiting. -/
theorem dequeueEdge (h : en.Kept seen due entered s) {id : EdgeId} {rest : List EdgeId}
    (work : s.edgeWork = id :: rest) :
    en.Kept seen (fun x => due x ∧ ∀ e i, en.f.edge? id = some e → x ≠ .phi e.dst i)
      (fun d => entered d ∨ ∃ e, en.f.edge? id = some e ∧ e.dst = d)
      { s with edgeWork := rest } :=
  { h with
    settled := fun x hx => by cases x <;> exact h.settled _ hx
    visited := by
      intro x hx
      rcases h.visited x hx.1 with stable | pending
      · left
        cases x <;> exact stable
      · right
        cases pending with
        | name reads waits => exact .name reads waits
        | edge waits he =>
            rw [work] at waits
            rcases List.mem_cons.mp waits with rfl | waits
            · exact absurd rfl (hx.2 _ _ he)
            · exact .edge waits he
    followed := by
      intro id' e he executable
      rcases h.followed id' e he executable with waits | there
      · rw [work] at waits
        rcases List.mem_cons.mp waits with rfl | waits
        · exact .inr (.inr ⟨e, he, rfl⟩)
        · exact .inl waits
      · exact .inr (.inl there) }

/-- A name that is taken from its work list no longer keeps its uses waiting. -/
theorem dequeueName (h : en.Kept seen due entered s) (n : NameId)
    {varyingWork changedWork : List NameId}
    (work : ∀ m, m ≠ n → m ∈ s.varyingWork ∨ m ∈ s.changedWork →
      m ∈ varyingWork ∨ m ∈ changedWork) :
    en.Kept seen (fun x => due x ∧ x ∉ (en.f.uses n).map Site.ofUse) entered
      { s with varyingWork, changedWork, queued := s.queued.set n false } := by
  have still : ∀ m, ((s.queued.set n false)[m]?).getD false = true ↔
      m ≠ n ∧ s.isQueued m = true := by
    intro m
    rw [List.getElem?_set, EngineState.isQueued]
    by_cases same : n = m
    · subst same
      rw [if_pos rfl]
      split <;> simp
    · simp [same, Ne.symm same]
  exact { h with
    nameCount := (List.length_set ..).trans h.nameCount
    waiting := fun m hm => work m ((still m).mp hm).1 (h.waiting m ((still m).mp hm).2)
    settled := fun x hx => by cases x <;> exact h.settled _ hx
    visited := by
      intro x hx
      rcases h.visited x hx.1 with stable | pending
      · left
        cases x <;> exact stable
      · right
        cases pending with
        | name reads waits =>
            refine .name reads ((still _).mpr ⟨fun same => ?_, waits⟩)
            rw [same] at reads
            exact hx.2 reads
        | edge waits he => exact .edge waits he }

end Kept

/-- The edges that need no decision can be taken. -/
def Opened (en : Engine) (s : EngineState) : Prop :=
  ∀ id e b, en.f.edge? id = some e → en.f.block? e.src = some b → s.blockExecutable e.src = true →
    (e.isAbnormal || !isConditional b.terminator) = true → s.edgeExecutable id = true

theorem Opened.advance (h : en.Opened s) (onward : s.Advance s') : en.Opened s' := by
  intro id e b he hb executable sure
  rw [onward.blockExecutable] at executable
  exact onward.edges id (h id e b he hb executable sure)

/-- The invariant of the propagation. -/
structure Inv (en : Engine) (seen : EngineState → Prop) (s : EngineState) : Prop extends
    Kept en seen (fun x => s.blockExecutable x.block = true)
      (fun d => s.blockExecutable d = true) s where
  opened : en.Opened s

theorem stable_phi_of_le {block : BlockId} {b : Block} (hb : en.f.block? block = some b)
    {index : Nat} (h : b.phis.length ≤ index) : en.Stable seen s (.phi block index) := by
  intro phi hphi
  obtain ⟨b', hb', at_⟩ := Function.phiAt?_eq_some.mp hphi
  rw [hb] at hb'
  cases hb'
  rw [List.getElem?_eq_none h] at at_
  cases at_

theorem stable_stmt_of_le {block : BlockId} {b : Block} (hb : en.f.block? block = some b)
    {index : Nat} (h : b.stmts.length ≤ index) : en.Stable seen s (.stmt block index) := by
  intro dest rhs hstmt
  obtain ⟨b', hb', at_⟩ := Function.stmtAt?_eq_some.mp hstmt
  rw [hb] at hb'
  cases hb'
  rw [List.getElem?_eq_none h] at at_
  cases at_

theorem stable_terminator_of_not {block : BlockId} {b : Block} (hb : en.f.block? block = some b)
    (h : isConditional b.terminator = false) : en.Stable seen s (.terminator block) := by
  intro b' hb' conditional
  rw [hb] at hb'
  cases hb'
  rw [h] at conditional
  cases conditional

theorem blockExecutable_set {block d : BlockId} (bound : block < s.executableBlocks.length) :
    EngineState.blockExecutable { s with executableBlocks := s.executableBlocks.set block true } d =
      true ↔ s.blockExecutable d = true ∨ d = block := by
  simp only [EngineState.blockExecutable, List.getElem?_set]
  by_cases same : block = d
  · subst same
    simp [bound]
  · simp [same, Ne.symm same]

theorem visitPhis_kept (hf : en.f.Valid) {block : BlockId} {b : Block}
    (hb : en.f.block? block = some b)
    (shown : ∀ t ∈ (List.range b.phis.length).scanl (fun s i => en.simulate s (.phi block i)) s,
      seen t)
    (h : en.Kept seen (fun x => due x ∧ ∀ i, x ≠ .phi block i) entered s) :
    s.Advance (en.visitPhis s block b) ∧
      en.Kept seen (fun x => due x ∨ ∃ i, x = .phi block i) entered (en.visitPhis s block b) := by
  obtain ⟨onward, kept⟩ := h.foldl_simulate hf b.phis.length (.phi block) shown
  refine ⟨onward, kept.mono ?_ fun _ hd => hd⟩
  intro x hx
  by_cases merge : ∃ i, x = .phi block i
  · obtain ⟨i, rfl⟩ := merge
    by_cases inside : i < b.phis.length
    · exact .inl (.inr ⟨i, inside, rfl⟩)
    · exact .inr (stable_phi_of_le hb (Nat.le_of_not_lt inside))
  · refine .inl (.inl ⟨hx.resolve_right merge, fun i same => merge ⟨i, same⟩⟩)

theorem visitStmts_kept (hf : en.f.Valid) {block : BlockId} {b : Block}
    (hb : en.f.block? block = some b)
    (shown : ∀ t ∈ (List.range b.stmts.length).scanl (fun s i => en.simulate s (.stmt block i))
      { s with executableBlocks := s.executableBlocks.set block true }, seen t)
    (h : en.Kept seen due entered s) (opened : en.Opened s) :
    (∀ d, (en.visitStmts s block b).blockExecutable d = true ↔
      s.blockExecutable d = true ∨ d = block) ∧
    en.Opened (en.visitStmts s block b) ∧
    en.Kept seen (fun x => due x ∨ ∃ i, x = .stmt block i) entered (en.visitStmts s block b) := by
  have inBounds : block < s.executableBlocks.length :=
    h.blockCount ▸ (List.getElem?_eq_some_iff.mp hb).1
  have entering := h.blocks (s.executableBlocks.set block true)
    ((List.length_set ..).trans h.blockCount)
  obtain ⟨stmts, kept⟩ := entering.foldl_simulate hf b.stmts.length (.stmt block) shown
  have sure := stmts.trans (EngineState.foldl_addEdge_advance _ (en.sureEdges block b))
  have blocks : ∀ d, (en.visitStmts s block b).blockExecutable d = true ↔
      s.blockExecutable d = true ∨ d = block := by
    intro d
    exact (Eq.congr_left (sure.blockExecutable d)).trans (blockExecutable_set inBounds)
  refine ⟨blocks, ?_, (kept.foldl_addEdge hf (en.sureEdges block b)).mono ?_ fun _ hd => hd⟩
  · intro id e b' he hb' executable unconditional
    rcases (blocks _).mp executable with before | rfl
    · exact sure.edges id (opened id e b' he hb' before unconditional)
    · rw [hb] at hb'
      cases hb'
      have member : id ∈ en.sureEdges e.src b :=
        Function.mem_edgesWhere.mpr ⟨e, he, by simp [unconditional]⟩
      have bound := Function.edge?_lt he
      rw [← h.edgeCount] at bound
      exact EngineState.edgeExecutable_foldl_addEdge member (stmts.edgeCount ▸ bound)
  · rintro x (before | ⟨i, rfl⟩)
    · exact .inl (.inl before)
    · by_cases inside : i < b.stmts.length
      · exact .inl (.inr ⟨i, inside, rfl⟩)
      · exact .inr (stable_stmt_of_le hb (Nat.le_of_not_lt inside))

/-- The first visit to a block makes all its places due. -/
theorem enter_inv (hf : en.f.Valid) {block : BlockId} {b : Block} (hb : en.f.block? block = some b)
    (shown : ∀ t ∈ (List.range b.stmts.length).scanl (fun s i => en.simulate s (.stmt block i))
      { s with executableBlocks := s.executableBlocks.set block true }, seen t)
    (atEnd : seen (en.visitStmts s block b))
    (h : en.Kept seen (fun x => s.blockExecutable x.block = true ∨ ∃ i, x = .phi block i)
      (fun d => s.blockExecutable d = true ∨ d = block) s) (opened : en.Opened s) :
    en.Inv seen (en.enter s block b) ∧ ∀ d, (en.enter s block b).blockExecutable d = true ↔
      s.blockExecutable d = true ∨ d = block := by
  obtain ⟨blocks, opened, kept⟩ := visitStmts_kept hf hb shown h opened
  have due : ∀ x : Site, x.block = block →
      (∃ i, x = .phi block i) ∨ (∃ i, x = .stmt block i) ∨ x = .terminator block := by
    rintro (⟨d, i⟩ | ⟨d, i⟩ | d) same <;> cases same
    · exact .inl ⟨i, rfl⟩
    · exact .inr (.inl ⟨i, rfl⟩)
    · exact .inr (.inr rfl)
  unfold enter
  cases conditional : isConditional b.terminator with
  | true =>
      obtain ⟨onward, kept⟩ := kept.simulate hf atEnd (.terminator block)
      have blocks' := fun d => (Eq.congr_left (onward.blockExecutable d)).trans (blocks d)
      refine ⟨⟨kept.mono ?_ fun d hd => (blocks' d).mpr hd, opened.advance onward⟩, blocks'⟩
      intro x hx
      rcases (blocks' _).mp hx with before | same
      · exact .inl (.inl (.inl (.inl before)))
      · rcases due x same with merge | stmt | terminator
        · exact .inl (.inl (.inl (.inr merge)))
        · exact .inl (.inl (.inr stmt))
        · exact .inl (.inr terminator)
  | false =>
      refine ⟨⟨kept.mono ?_ fun d hd => (blocks d).mpr hd, opened⟩, blocks⟩
      intro x hx
      rcases (blocks _).mp hx with before | same
      · exact .inl (.inl (.inl before))
      · rcases due x same with merge | stmt | rfl
        · exact .inl (.inl (.inr merge))
        · exact .inl (.inr stmt)
        · exact .inr (stable_terminator_of_not hb conditional)

/-- The visit to a block that is, or comes to be, one that can be entered. -/
theorem simulateBlock_inv (hf : en.f.Valid) {block : BlockId} {b : Block}
    (hb : en.f.block? block = some b) (shown : ∀ t ∈ en.blockHistory s block, seen t)
    (h : en.Kept seen (fun x => s.blockExecutable x.block = true ∧ ∀ i, x ≠ .phi block i)
      (fun d => s.blockExecutable d = true ∨ d = block) s) (opened : en.Opened s) :
    en.Inv seen (en.simulateBlock s block) ∧
      ∀ d, (en.simulateBlock s block).blockExecutable d = true ↔
        s.blockExecutable d = true ∨ d = block := by
  simp only [blockHistory, hb, List.mem_append] at shown
  obtain ⟨onward, kept⟩ := visitPhis_kept hf hb (fun t ht => shown t (.inl ht)) h
  have blocks := onward.blockExecutable
  rw [simulateBlock_eq hb]
  split
  · next known =>
      have there : ∀ d, s.blockExecutable d = true ∨ d = block →
          (en.visitPhis s block b).blockExecutable d = true := by
        rintro d (before | rfl)
        · exact (blocks d).trans before
        · exact known
      refine ⟨⟨kept.mono ?_ there, opened.advance onward⟩, fun d => ⟨?_, there d⟩⟩
      · intro x hx
        exact .inl (.inl ((blocks _).symm.trans hx))
      · intro hd
        exact .inl ((blocks d).symm.trans hd)
  · next new =>
    simp only [new, Bool.false_eq_true, if_false, List.mem_append, List.mem_cons] at shown
    have result := enter_inv hf hb (s := en.visitPhis s block b)
      (fun t ht => shown t (.inr (.inl ht))) (shown _ (.inr (.inr (.inl rfl))))
      (by simpa only [blocks] using kept) (opened.advance onward)
    simpa only [blocks] using result

/-- The work on a name visits all that waits for it. -/
theorem processName_inv (hf : en.f.Valid) (h : en.Inv seen s) (n : NameId)
    (varyingWork changedWork : List NameId)
    (work : ∀ m, m ≠ n → m ∈ s.varyingWork ∨ m ∈ s.changedWork →
      m ∈ varyingWork ∨ m ∈ changedWork)
    (shown : ∀ t ∈ en.nameHistory { s with varyingWork, changedWork } n, seen t) :
    en.Inv seen (en.processName { s with varyingWork, changedWork } n) ∧
      ∀ d, (en.processName { s with varyingWork, changedWork } n).blockExecutable d =
        s.blockExecutable d := by
  obtain ⟨onward, kept⟩ := (h.toKept.dequeueName n work).foldl_simulate_where hf
    (fun s site => s.blockExecutable site.block)
    (fun onward => funext fun x => onward.blockExecutable x.block)
    ((en.f.uses n).map Site.ofUse).eraseDups shown
  have blocks := onward.blockExecutable
  have opened : en.Opened
      { s with varyingWork, changedWork, queued := s.queued.set n false } := h.opened
  refine ⟨⟨kept.mono ?_ fun d hd => (blocks d).trans hd, opened.advance onward⟩, blocks⟩
  intro x hx
  replace hx := (blocks x.block).symm.trans hx
  by_cases reads : x ∈ (en.f.uses n).map Site.ofUse
  · exact .inl (.inr ⟨List.mem_eraseDups.mpr reads, hx⟩)
  · exact .inl (.inl ⟨hx, reads⟩)

/-- A step works off an edge, or a name of one of the two lists. -/
theorem step?_cases (step : en.step? s = some s') :
    (∃ id rest, s.edgeWork = id :: rest ∧
      ((∃ e, en.f.edge? id = some e ∧ s' = en.simulateBlock { s with edgeWork := rest } e.dst ∧
          en.stepHistory s = en.blockHistory { s with edgeWork := rest } e.dst) ∨
        (en.f.edge? id = none ∧ s' = { s with edgeWork := rest } ∧
          en.stepHistory s = [{ s with edgeWork := rest }]))) ∨
    (∃ n rest, s.varyingWork = n :: rest ∧ s' = en.processName { s with varyingWork := rest } n ∧
      en.stepHistory s = en.nameHistory { s with varyingWork := rest } n) ∨
    (∃ n rest, s.changedWork = n :: rest ∧ s' = en.processName { s with changedWork := rest } n ∧
      en.stepHistory s = en.nameHistory { s with changedWork := rest } n) := by
  unfold step? at step
  unfold stepHistory
  cases edges : s.edgeWork with
  | cons id rest =>
      simp only [edges] at step
      refine .inl ⟨id, rest, rfl, ?_⟩
      split at step
      · next e he => exact .inl ⟨e, he, (Option.some.inj step).symm, by simp only [he]⟩
      · next missing =>
          exact .inr ⟨missing, (Option.some.inj step).symm, by simp only [missing]⟩
  | nil =>
      cases varying : s.varyingWork with
      | cons n rest =>
          simp only [edges, varying] at step
          exact .inr (.inl ⟨n, rest, rfl, (Option.some.inj step).symm, rfl⟩)
      | nil =>
          cases changed : s.changedWork with
          | cons n rest =>
              simp only [edges, varying, changed] at step
              exact .inr (.inr ⟨n, rest, rfl, (Option.some.inj step).symm, rfl⟩)
          | nil =>
              simp only [edges, varying, changed] at step
              cases step

theorem step?_inv (hf : en.f.Valid) (h : en.Inv seen s) (step : en.step? s = some s')
    (shown : ∀ t ∈ en.stepHistory s, seen t) :
    en.Inv seen s' ∧ ∀ d, s.blockExecutable d = true → s'.blockExecutable d = true := by
  rcases step?_cases step with ⟨id, rest, work, ⟨e, he, rfl, states⟩ | ⟨missing, rfl, states⟩⟩ |
    ⟨n, rest, work, rfl, states⟩ | ⟨n, rest, work, rfl, states⟩ <;> rw [states] at shown
  · obtain ⟨-, t, -, -, target, -⟩ := Function.mem_edges.mp (Function.mem_edges_of_edge? he)
    have only : ∀ e', en.f.edge? id = some e' → e' = e :=
      fun e' he' => Option.some.inj (he'.symm.trans he)
    have kept : en.Kept seen (fun x => s.blockExecutable x.block = true ∧ ∀ i, x ≠ .phi e.dst i)
        (fun d => s.blockExecutable d = true ∨ d = e.dst) { s with edgeWork := rest } := by
      refine (h.toKept.dequeueEdge work).mono ?_ ?_
      · rintro x ⟨executable, other⟩
        exact .inl ⟨executable, fun e' i he' => only e' he' ▸ other i⟩
      · rintro d (there | ⟨e', he', rfl⟩)
        · exact .inl there
        · exact .inr (only e' he' ▸ rfl)
    obtain ⟨inv, blocks⟩ := simulateBlock_inv (s := { s with edgeWork := rest }) hf target shown
      kept h.opened
    exact ⟨inv, fun d hd => (blocks d).mpr (.inl hd)⟩
  · have kept := h.toKept.dequeueEdge work
    refine ⟨⟨kept.mono (fun x hx => .inl ⟨hx, fun e i he => ?_⟩) ?_, h.opened⟩, fun d hd => hd⟩
    · rw [missing] at he
      cases he
    · rintro d (there | ⟨e, he, -⟩)
      · exact there
      · rw [missing] at he
        cases he
  · obtain ⟨inv, blocks⟩ := processName_inv hf h n rest s.changedWork (by
      intro m other waits
      rw [work] at waits
      exact waits.imp_left fun member => (List.mem_cons.mp member).resolve_left other) shown
    exact ⟨inv, fun d hd => (blocks d).trans hd⟩
  · obtain ⟨inv, blocks⟩ := processName_inv hf h n s.varyingWork rest (by
      intro m other waits
      rw [work] at waits
      exact waits.imp_right fun member => (List.mem_cons.mp member).resolve_left other) shown
    exact ⟨inv, fun d hd => (blocks d).trans hd⟩

/-- The work lists are empty if there is no further step. -/
theorem step?_eq_none (h : en.step? s = none) :
    s.edgeWork = [] ∧ s.varyingWork = [] ∧ s.changedWork = [] := by
  unfold step? at h
  split at h
  · dsimp only at h
    split at h <;> cases h
  · cases h
  · cases h
  · next edges varying changed => exact ⟨edges, varying, changed⟩

theorem propagate_inv (hf : en.f.Valid) {fuel : Nat} (h : en.Inv seen s)
    (shown : ∀ t ∈ en.propagateHistory fuel s, seen t)
    (run : en.propagate fuel s = (s', true)) :
    en.Inv seen s' ∧ en.step? s' = none ∧
      ∀ d, s.blockExecutable d = true → s'.blockExecutable d = true := by
  induction fuel generalizing s with
  | zero => cases run
  | succ fuel ih =>
      unfold propagate at run
      unfold propagateHistory at shown
      split at run
      · cases run
      · next within =>
        simp only [within, if_false] at shown
        split at run
        · next next hnext =>
            simp only [hnext, List.mem_append] at shown
            obtain ⟨inv, blocks⟩ := step?_inv hf h hnext fun t ht => shown t (.inl ht)
            obtain ⟨inv, last, later⟩ := ih inv (fun t ht => shown t (.inr ht)) run
            exact ⟨inv, last, fun d hd => later d (blocks d hd)⟩
        · next last =>
            cases run
            exact ⟨h, last, fun d hd => hd⟩

/-- Only ranges and settled places differ from the start, and what is settled is done. -/
structure Prepared (en : Engine) (s : EngineState) : Prop where
  frame : ∃ table settled, s = { en.start with table, settled }
  names : s.table.names = en.start.table.names
  settled : ∀ x ∈ s.settled, en.Done s x

/-- A place can be settled once any value is possible for the name that it sets. -/
theorem Prepared.store {n : NameId} (h : en.Prepared s) :
    en.Prepared (s.store n .varying).1 := by
  obtain ⟨⟨table, settled, rfl⟩, names, done⟩ := h
  refine ⟨⟨_, settled, rfl⟩, (RangeTable.update_names ..).trans names, fun x hx => ?_⟩
  exact (done x hx).mono (fun _ => RangeTable.isVarying_update) fun _ executable => executable

theorem Prepared.settle {site : Site} (h : en.Prepared s) (done : en.Done s site) :
    en.Prepared (s.settle site) := by
  have keeps : ∀ x, en.Done s x → en.Done (s.settle site) x :=
    fun x hx => hx.mono (fun _ varying => varying) fun _ executable => executable
  obtain ⟨⟨table, settled, rfl⟩, names, before⟩ := h
  refine ⟨⟨table, site :: settled, rfl⟩, names, fun x hx => ?_⟩
  rcases List.mem_cons.mp hx with rfl | hx
  · exact keeps x done
  · exact keeps x (before x hx)

theorem Prepared.presettlePhi (h : en.Prepared s) {block : BlockId} {index : Nat} {phi : Phi}
    (hphi : en.f.phiAt? block index = some phi) :
    en.Prepared (presettlePhi s (.phi block index) phi) := by
  unfold Engine.presettlePhi
  split
  · exact h
  · refine h.store.settle fun phi' hphi' => ?_
    rw [hphi] at hphi'
    cases hphi'
    simp only [EngineState.store, RangeTable.rangeOf_update_varying]
    rfl

theorem Prepared.presettleStmt (h : en.Prepared s) {block : BlockId} {index : Nat} {stmt : Stmt}
    (hstmt : en.f.stmtAt? block index = some stmt) :
    en.Prepared (presettleStmt s (.stmt block index) stmt) := by
  unfold Engine.presettleStmt
  split
  · exact h
  · cases stmt with
    | assign dest rhs =>
        refine h.store.settle fun dest' rhs' hstmt' => ?_
        rw [hstmt] at hstmt'
        cases hstmt'
        simp only [EngineState.store, RangeTable.rangeOf_update_varying]
        rfl
    | store | nop =>
        refine h.settle fun dest rhs hstmt' => ?_
        rw [hstmt] at hstmt'
        cases hstmt'

theorem presettle_prepared (en : Engine) : en.Prepared (en.presettle en.start) := by
  refine List.foldlRecOn _ _ ⟨⟨_, _, rfl⟩, rfl, fun x hx => by cases hx⟩ ?_
  rintro s prepared ⟨b, block⟩ hblock
  have hb := Function.block?_of_mem_zipIdx hblock
  refine List.foldlRecOn _ _ (List.foldlRecOn _ _ prepared ?_) ?_
  · rintro s prepared ⟨phi, index⟩ hphi
    exact prepared.presettlePhi
      (Function.phiAt?_eq_some.mpr ⟨b, hb, List.mk_mem_zipIdx_iff_getElem?.mp hphi⟩)
  · rintro s prepared ⟨stmt, index⟩ hstmt
    exact prepared.presettleStmt
      (Function.stmtAt?_eq_some.mpr ⟨b, hb, List.mk_mem_zipIdx_iff_getElem?.mp hstmt⟩)

theorem getElem?_replicate_false (count i : Nat) :
    ((List.replicate count false)[i]?).getD false = false := by
  rw [List.getElem?_replicate]
  split <;> rfl

theorem entry_inv (hf : en.f.Valid)
    (shown : ∀ t ∈ en.blockHistory (en.presettle en.start) en.f.entry, seen t) :
    en.Inv seen (en.simulateBlock (en.presettle en.start) en.f.entry) ∧
      (en.simulateBlock (en.presettle en.start) en.f.entry).blockExecutable en.f.entry = true := by
  obtain ⟨⟨table, settled, frame⟩, names, done⟩ := presettle_prepared en
  rw [frame] at names done shown ⊢
  have noBlock : ∀ d, en.start.blockExecutable d = false := getElem?_replicate_false _
  have noEdge : ∀ id, en.start.edgeExecutable id = false := getElem?_replicate_false _
  have noName : ∀ n, en.start.isQueued n = false := getElem?_replicate_false _
  have kept : en.Kept seen (fun x => en.start.blockExecutable x.block = true ∧
        ∀ i, x ≠ .phi en.f.entry i)
      (fun d => en.start.blockExecutable d = true ∨ d = en.f.entry)
      { en.start with table, settled } :=
    { names
      nameCount := List.length_replicate
      edgeCount := List.length_replicate
      blockCount := List.length_replicate
      waiting := fun n waits => absurd (waits.symm.trans (noName n)) (by decide)
      settled := done
      visited := fun x hx => absurd (hx.1.symm.trans (noBlock x.block)) (by decide)
      followed := fun id _ _ executable =>
        absurd (executable.symm.trans (noEdge id)) (by decide) }
  have opened : en.Opened { en.start with table, settled } :=
    fun id e b _ _ executable _ => absurd (executable.symm.trans (noBlock e.src)) (by decide)
  have inBounds : en.f.entry < en.f.blocks.length := List.length_pos_iff.mpr hf.nonempty
  obtain ⟨inv, blocks⟩ := simulateBlock_inv (s := { en.start with table, settled }) hf
    (List.getElem?_eq_getElem inBounds) shown kept opened
  exact ⟨inv, (blocks _).mpr (.inr rfl)⟩

theorem run_eq_propagate (run : en.run = (s, true)) : en.propagate en.stepLimit
    (en.simulateBlock (en.presettle en.start) en.f.entry) = (s, true) := by
  unfold Engine.run at run
  dsimp only at run
  obtain ⟨state, converged⟩ := Prod.mk.inj run
  rw [converged, if_pos rfl] at state
  exact Prod.ext state converged

/-- The last state of a run that comes to an end by itself. -/
theorem run_stable (seen : EngineState → Prop) (hf : en.f.Valid) (shown : ∀ t ∈ en.history, seen t)
    (run : en.run = (s, true)) :
    en.Inv seen s ∧ s.blockExecutable en.f.entry = true ∧
      (∀ site, s.blockExecutable site.block = true → en.Stable seen s site) ∧
      ∀ id e, en.f.edge? id = some e → s.edgeExecutable id = true →
        s.blockExecutable e.dst = true := by
  simp only [history, List.mem_cons, List.mem_append] at shown
  obtain ⟨inv, entry⟩ := entry_inv hf fun t ht => shown t (.inr (.inr (.inl ht)))
  obtain ⟨inv, none_, later⟩ := propagate_inv hf inv
    (fun t ht => shown t (.inr (.inr (.inr ht)))) (run_eq_propagate run)
  obtain ⟨edges, varying, changed⟩ := step?_eq_none none_
  refine ⟨inv, later _ entry, fun site executable => ?_, fun id e he executable => ?_⟩
  · rcases inv.visited site executable with stable | pending
    · exact stable
    · cases pending with
      | name reads waits =>
          rcases inv.waiting _ waits with listed | listed
          · rw [varying] at listed
            cases listed
          · rw [changed] at listed
            cases listed
      | edge waits he =>
          rw [edges] at waits
          cases waits
  · refine (inv.followed id e he executable).resolve_left fun waits => ?_
    rw [edges] at waits
    cases waits

end RangeFlow.Engine
