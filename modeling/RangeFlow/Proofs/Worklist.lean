import Mathlib.Data.List.Basic
import RangeFlow.Proofs.Dependence
import RangeFlow.Proofs.Edges
import RangeFlow.Proofs.Table
import RangeFlow.Proofs.Typing

/-! # No work is lost

A place of the function is stable if a visit has computed its range from the ranges that the names
it reads have now. The invariant of the propagation is that every place of a block that can be
entered is stable, or waits: a name it reads is on a work list, or an edge to its block is. Every
visit keeps this for all other places and brings it about for its own, so when the work lists are
empty all places are stable.
-/

namespace RangeFlow.Engine

variable {en : Engine} {seen : EngineState → Prop} {s s' : EngineState}

/-- The range of a merge as its operands give it, before widening. -/
def mergedRange (en : Engine) (s : EngineState) (block : BlockId) (phi : Phi) : ValueRange :=
  (en.phiContributions s block phi).foldl (ValueRange.meet (s.table.typeOf phi.dest)) .undefined

/-- Nothing is known about the name, or its range is what its right-hand side gives in a state that
    has been seen, in which the names that are read there have the ranges that they have now. -/
def StmtStable (en : Engine) (seen : EngineState → Prop) (s : EngineState) (dest : NameId)
    (rhs : Rhs) : Prop :=
  (s.table.rangeOf dest).isVarying = true ∨ ∃ before : EngineState, seen before ∧
    before.table.names = s.table.names ∧
    (∀ n ∈ rhs.usedNames, before.table.rangeOf n = s.table.rangeOf n) ∧
    s.table.rangeOf dest =
      before.table.query.rhsResult (s.table.typeOf dest) rhs en.config.nonCallExceptions

/-- What a visit in a state makes of the range that the operands of a merge give: it leaves it, or
    widens it, or takes from the evolution of the name alone what is known. -/
inductive Computed (en : Engine) (before : EngineState) (block : BlockId) (dest : NameId)
    (ty : ScalarType) (merged : ValueRange) : ValueRange → Prop where
  | merged : Computed en before block dest ty merged merged
  | widened {old vr : ValueRange} (h : en.widen? before block dest ty old merged = some vr) :
      Computed en before block dest ty merged vr
  | narrowed : Computed en before block dest ty merged (en.narrow before block dest ty .varying)

/-- Nothing is known about the name, or its range is computed from what its operands give, in a
    state in which these have the ranges that they have now. -/
def PhiStable (en : Engine) (s : EngineState) (block : BlockId) (phi : Phi) : Prop :=
  (s.table.rangeOf phi.dest).isVarying = true ∨ ∃ before : EngineState,
    before.table.names = s.table.names ∧
    (∀ o ∈ phi.operands, ∀ n, o.value = .name n →
      before.table.rangeOf n = s.table.rangeOf n) ∧
    en.Computed before block phi.dest (s.table.typeOf phi.dest) (en.mergedRange s block phi)
      (s.table.rangeOf phi.dest)

/-- All edges can be taken, or the ranges decide for one that can. -/
def TerminatorStable (en : Engine) (s : EngineState) (block : BlockId) (t : Terminator) : Prop :=
  (∀ e ∈ en.f.succEdges block, s.edgeExecutable e = true) ∨
    ∃ target e, decidedTarget? s.table.query t = some target ∧
      en.f.findEdge? block target = some e ∧ s.edgeExecutable e = true

/-- A visit now would bring nothing new to the place, unless it is a comparison that reads the
    ranges of names that equal its sides. -/
def Stable (en : Engine) (seen : EngineState → Prop) (s : EngineState) : Site → Prop
  | .phi block index => ∀ phi, en.f.phiAt? block index = some phi → en.PhiStable s block phi
  | .stmt block index => ∀ dest rhs, en.f.stmtAt? block index = some (.assign dest rhs) →
      en.StmtStable seen s dest rhs
  | .terminator block => ∀ b, en.f.block? block = some b → isConditional b.terminator = true →
      en.TerminatorStable s block b.terminator

/-- A name that the place reads waits, or an edge to a merge does. -/
inductive Pending (en : Engine) (s : EngineState) : Site → Prop where
  | name {site : Site} {n : NameId} (reads : site ∈ (en.f.uses n).map Site.ofUse)
      (waits : s.isQueued n = true) : Pending en s site
  | edge {id : EdgeId} {e : Edge} {index : Nat} (waits : id ∈ s.edgeWork)
      (he : en.f.edge? id = some e) : Pending en s (.phi e.dst index)

/-- The place needs no further visit, whatever happens. -/
def Done (en : Engine) (s : EngineState) : Site → Prop
  | .phi block index => ∀ phi, en.f.phiAt? block index = some phi →
      (s.table.rangeOf phi.dest).isVarying = true
  | .stmt block index => ∀ dest rhs, en.f.stmtAt? block index = some (.assign dest rhs) →
      (s.table.rangeOf dest).isVarying = true
  | .terminator block => ∀ e ∈ en.f.succEdges block, s.edgeExecutable e = true

/-- The place sets the name. -/
def Sets (f : Function) (n : NameId) : Site → Prop
  | .phi block index => ∃ phi, f.phiAt? block index = some phi ∧ phi.dest = n
  | .stmt block index => ∃ rhs, f.stmtAt? block index = some (.assign n rhs)
  | .terminator _ => False

theorem Done.stable {site : Site} (h : en.Done s site) : en.Stable seen s site := by
  cases site with
  | phi block index => exact fun phi hphi => .inl (h phi hphi)
  | stmt block index => exact fun dest rhs hstmt => .inl (h dest rhs hstmt)
  | terminator block => exact fun b _ _ => .inl h

theorem Done.mono {site : Site} (h : en.Done s site)
    (varying : ∀ n, (s.table.rangeOf n).isVarying = true → (s'.table.rangeOf n).isVarying = true)
    (edges : ∀ e, s.edgeExecutable e = true → s'.edgeExecutable e = true) : en.Done s' site := by
  cases site with
  | phi block index => exact fun phi hphi => varying _ (h phi hphi)
  | stmt block index => exact fun dest rhs hstmt => varying _ (h dest rhs hstmt)
  | terminator block => exact fun e he => edges e (h e he)

theorem Done.advance {site : Site} (h : en.Done s site) (onward : s.Advance s') :
    en.Done s' site := h.mono onward.varying onward.edges

theorem Pending.advance {site : Site} (h : en.Pending s site) (onward : s.Advance s') :
    en.Pending s' site := by
  cases h with
  | name reads waits => exact .name reads (onward.queued _ waits)
  | edge waits he => exact .edge (onward.edgeWork _ waits) he

/-- In a valid function only one place sets a name. -/
theorem Sets.unique {f : Function} (hf : f.Valid) {n : NameId} {a b : Site} (ha : Sets f n a)
    (hb : Sets f n b) : a = b := by
  have site : ∀ x : Site, Sets f n x →
      (n, match x with
        | .phi block index => DefSite.phi block index
        | .stmt block index => .stmt block index
        | .terminator _ => .default) ∈ f.innerDefs := by
    intro x hx
    cases x with
    | phi block index => exact Function.mem_innerDefs_phi.mpr hx
    | stmt block index =>
        obtain ⟨rhs, hstmt⟩ := hx
        exact Function.mem_innerDefs_stmt.mpr ⟨_, hstmt, rfl⟩
    | terminator block => exact hx.elim
  have same := hf.defSite_unique (site a ha) (site b hb)
  cases a with
  | phi block index =>
      cases b with
      | phi block' index' =>
          cases same
          rfl
      | stmt block' index' => cases same
      | terminator block' => exact hb.elim
  | stmt block index =>
      cases b with
      | phi block' index' => cases same
      | stmt block' index' =>
          cases same
          rfl
      | terminator block' => exact hb.elim
  | terminator block => exact ha.elim

section Frame

variable (hf : en.f.Valid) (bound : s.queued.length = en.f.nameCount) (onward : s.Advance s')

include hf bound onward

/-- A range computed from the ranges before makes an assignment stable, or it waits because a name
    that it reads has changed since. -/
theorem stmtStable_or_pending {block : BlockId} {index : Nat} {dest : NameId} {rhs : Rhs}
    (hstmt : en.f.stmtAt? block index = some (.assign dest rhs))
    (computed : (s'.table.rangeOf dest).isVarying = true ∨ ∃ before : EngineState, seen before ∧
      before.table.names = s.table.names ∧
      (∀ n ∈ rhs.usedNames, before.table.rangeOf n = s.table.rangeOf n) ∧
      s'.table.rangeOf dest =
        before.table.query.rhsResult (s.table.typeOf dest) rhs en.config.nonCallExceptions) :
    en.StmtStable seen s' dest rhs ∨ en.Pending s' (.stmt block index) := by
  by_cases changed : ∃ n ∈ rhs.usedNames, s'.table.rangeOf n ≠ s.table.rangeOf n
  · obtain ⟨n, hn, differs⟩ := changed
    have exists_ : n < en.f.nameCount := hf.stmt_usedNames_lt hstmt hn
    have reads := List.mem_map_of_mem (f := Site.ofUse) (Function.stmt_mem_uses hstmt exists_ hn)
    exact .inr (.name reads (onward.ranges n (bound ▸ exists_) differs))
  · left
    rcases computed with varying | ⟨before, shown, names, ranges, stored⟩
    · exact .inl varying
    · have sameTypes : s'.table.typeOf = s.table.typeOf := funext onward.typeOf
      refine .inr ⟨before, shown, names.trans onward.names.symm, ?_, ?_⟩
      · intro n hn
        rw [ranges n hn]
        exact Classical.byContradiction fun differs =>
          changed ⟨n, hn, fun same => differs same.symm⟩
      · rw [sameTypes]
        exact stored

/-- A range computed from the ranges before makes a merge stable, or it waits because an operand or
    an edge has changed since. -/
theorem phiStable_or_pending {block : BlockId} {index : Nat} {phi : Phi}
    (hphi : en.f.phiAt? block index = some phi)
    (computed : (s'.table.rangeOf phi.dest).isVarying = true ∨ ∃ before : EngineState,
      before.table.names = s.table.names ∧
      (∀ o ∈ phi.operands, ∀ n, o.value = .name n →
        before.table.rangeOf n = s.table.rangeOf n) ∧
      en.Computed before block phi.dest (s.table.typeOf phi.dest) (en.mergedRange s block phi)
        (s'.table.rangeOf phi.dest)) :
    en.PhiStable s' block phi ∨ en.Pending s' (.phi block index) := by
  by_cases names : ∃ o ∈ phi.operands, ∃ n, o.value = .name n ∧
      s'.table.rangeOf n ≠ s.table.rangeOf n
  · obtain ⟨o, ho, n, hn, differs⟩ := names
    have exists_ : n < en.f.nameCount := by
      have typed := hf.phi_typed hphi ho
      rw [hn] at typed
      exact typed.lt
    have reads := List.mem_map_of_mem (f := Site.ofUse)
      (Function.phi_mem_uses hphi exists_ ho hn)
    exact .inr (.name reads (onward.ranges n (bound ▸ exists_) differs))
  · by_cases edges : ∃ o ∈ phi.operands, ∃ id, en.f.findEdge? o.predecessor block = some id ∧
        s'.edgeExecutable id ≠ s.edgeExecutable id
    · obtain ⟨o, ho, id, hid, differs⟩ := edges
      obtain ⟨e, he, -, dst⟩ := Function.findEdge?_eq_some hid
      have found : s'.edgeExecutable id = true ∧ ¬ s.edgeExecutable id = true := by
        have keeps := onward.edges id
        cases before : s.edgeExecutable id <;> cases after : s'.edgeExecutable id <;>
          simp_all
      right
      rw [← dst]
      exact .edge ((onward.found id found.1).resolve_left found.2) he
    · left
      have sameTypes : s'.table.typeOf = s.table.typeOf := funext onward.typeOf
      have contributions : en.phiContributions s' block phi = en.phiContributions s block phi := by
        unfold phiContributions
        refine List.filterMap_congr fun o ho => ?_
        cases hid : en.f.findEdge? o.predecessor block with
        | none => rfl
        | some id =>
            have executable : s'.edgeExecutable id = s.edgeExecutable id :=
              Classical.byContradiction fun differs => edges ⟨o, ho, id, hid, differs⟩
            have contribution : en.phiContribution s' id o.value =
                en.phiContribution s id o.value := by
              cases hvalue : o.value with
              | const c => rfl
              | name n =>
                  have range : s'.table.rangeOf n = s.table.rangeOf n :=
                    Classical.byContradiction fun differs => names ⟨o, ho, n, hvalue, differs⟩
                  simp only [phiContribution, range]
            simp only [executable, contribution]
      have merged : en.mergedRange s' block phi = en.mergedRange s block phi := by
        rw [mergedRange, mergedRange, contributions, sameTypes]
      rw [PhiStable, merged, sameTypes]
      refine computed.imp id fun ⟨before, types, ranges, result⟩ =>
        ⟨before, types.trans onward.names.symm, fun o ho n hn => ?_, result⟩
      rw [ranges o ho n hn]
      exact Classical.byContradiction fun differs =>
        names ⟨o, ho, n, hn, fun same => differs same.symm⟩

/-- A terminator stays stable, or waits because a name that it reads has changed. -/
theorem terminatorStable_or_pending {block : BlockId} {b : Block} (hb : en.f.block? block = some b)
    (h : en.TerminatorStable s block b.terminator) :
    en.TerminatorStable s' block b.terminator ∨ en.Pending s' (.terminator block) := by
  rcases h with all | ⟨target, e, decided, found, executable⟩
  · exact .inl (.inl fun e he => onward.edges e (all e he))
  · by_cases changed : ∃ n ∈ b.terminator.usedNames, s'.table.rangeOf n ≠ s.table.rangeOf n
    · obtain ⟨n, hn, differs⟩ := changed
      have exists_ : n < en.f.nameCount := hf.terminator_usedNames_lt hb hn
      have reads := List.mem_map_of_mem (f := Site.ofUse)
        (Function.terminator_mem_uses hb exists_ hn)
      exact .inr (.name reads (onward.ranges n (bound ▸ exists_) differs))
    · left
      have same : decidedTarget? s'.table.query b.terminator =
          decidedTarget? s.table.query b.terminator := by
        refine Query.decidedTarget?_congr (funext onward.typeOf) fun n hn => ?_
        exact Classical.byContradiction fun differs => changed ⟨n, hn, differs⟩
      exact .inr ⟨target, e, same.trans decided, found, onward.edges e executable⟩

/-- A place whose name is kept stays stable, or waits. -/
theorem Stable.advance {site : Site}
    (kept : ∀ n, Sets en.f n site → s'.table.rangeOf n = s.table.rangeOf n)
    (h : en.Stable seen s site) : en.Stable seen s' site ∨ en.Pending s' site := by
  cases site with
  | phi block index =>
      cases hphi : en.f.phiAt? block index with
      | none =>
          left
          intro phi hphi'
          rw [hphi] at hphi'
          cases hphi'
      | some phi =>
          have same := kept phi.dest ⟨phi, hphi, rfl⟩
          refine (phiStable_or_pending hf bound onward hphi ?_).imp ?_ id
          · rw [same]
            exact h phi hphi
          · intro stable phi' hphi'
            rw [hphi] at hphi'
            cases hphi'
            exact stable
  | stmt block index =>
      by_cases assigns : ∃ dest rhs, en.f.stmtAt? block index = some (.assign dest rhs)
      · obtain ⟨dest, rhs, hstmt⟩ := assigns
        have same := kept dest ⟨rhs, hstmt⟩
        refine Or.imp (a := en.StmtStable seen s' dest rhs) ?_ id
          (stmtStable_or_pending hf bound onward hstmt ?_)
        · intro stable dest' rhs' hstmt'
          rw [hstmt] at hstmt'
          cases hstmt'
          exact stable
        · rw [same]
          exact h dest rhs hstmt
      · left
        intro dest rhs hstmt
        exact absurd ⟨dest, rhs, hstmt⟩ assigns
  | terminator block =>
      by_cases chooses : ∃ b, en.f.block? block = some b ∧ isConditional b.terminator = true
      · obtain ⟨b, hb, conditional⟩ := chooses
        refine (terminatorStable_or_pending hf bound onward hb (h b hb conditional)).imp ?_ id
        intro stable b' hb' _
        rw [hb] at hb'
        cases hb'
        exact stable
      · left
        intro b hb conditional
        exact absurd ⟨b, hb, conditional⟩ chooses

end Frame

section Visit

/-- A visit to a merge stores the merged range, or stores a widened one, or gives up. -/
theorem visitPhi_cases (en : Engine) (s : EngineState) (block : BlockId) (phi : Phi) :
    ∃ before : EngineState, (∃ phiEdges, before = { s with phiEdges }) ∧
      (en.visitPhi s block phi = before.store phi.dest (en.mergedRange s block phi) ∨
      (∃ old widened, en.widen? before block phi.dest (s.table.typeOf phi.dest) old
          (en.mergedRange s block phi) = some widened ∧
        en.visitPhi s block phi = before.store phi.dest widened) ∨
      en.visitPhi s block phi =
        en.giveUpPhi before block phi.dest (s.table.typeOf phi.dest)) := by
  unfold visitPhi
  dsimp only
  rw [← mergedRange]
  split
  · exact ⟨s, ⟨s.phiEdges, rfl⟩, .inr (.inr rfl)⟩
  · split
    · exact ⟨s, ⟨s.phiEdges, rfl⟩, .inl rfl⟩
    · split
      · split
        · next widened hwiden =>
            exact ⟨_, ⟨_, rfl⟩, .inr (.inl ⟨_, widened, hwiden, rfl⟩)⟩
        · exact ⟨_, ⟨_, rfl⟩, .inr (.inr rfl)⟩
      · exact ⟨_, ⟨_, rfl⟩, .inl rfl⟩

theorem giveUpPhi_stores (en : Engine) (s : EngineState) (block : BlockId) (dest : NameId)
    (ty : ScalarType) :
    s.Stores (en.giveUpPhi s block dest ty).1 dest (en.giveUpPhi s block dest ty).2 := by
  unfold giveUpPhi
  dsimp only
  split
  · refine ⟨⟨.varying, s.phiEdges, rfl, fun unchanged => by cases unchanged⟩, fun _ => ?_⟩
    simp only [EngineState.store, RangeTable.rangeOf_update_varying]
    rfl
  · exact s.store_stores dest _

/-- Without evolutions nothing is left to know about a merge that is given up. -/
theorem giveUpPhi_eq (noEvolution : en.config.useEvolution = false) (s : EngineState)
    (block : BlockId) (dest : NameId) (ty : ScalarType) :
    en.giveUpPhi s block dest ty = ((s.store dest .varying).1, .varying) := by
  have same : en.narrow s block dest ty .varying = .varying := by simp [narrow, noEvolution]
  unfold giveUpPhi
  dsimp only
  rw [same, if_pos (by rfl)]

theorem visitPhi_stores (en : Engine) (s : EngineState) (block : BlockId) (phi : Phi) :
    s.Stores (en.visitPhi s block phi).1 phi.dest (en.visitPhi s block phi).2 := by
  obtain ⟨before, ⟨phiEdges, rfl⟩, direct | ⟨old, widened, -, direct⟩ | givenUp⟩ :=
    visitPhi_cases en s block phi
  · rw [direct]
    exact (EngineState.store_stores _ _ _).of_phiEdges
  · rw [direct]
    exact (EngineState.store_stores _ _ _).of_phiEdges
  · rw [givenUp]
    exact (giveUpPhi_stores en _ block phi.dest _).of_phiEdges

/-- Of a merge that is given up nothing is known, or what its evolution tells. -/
theorem giveUpPhi_computed (en : Engine) (s : EngineState) (block : BlockId) (dest : NameId)
    (ty : ScalarType) : ((en.giveUpPhi s block dest ty).1.table.rangeOf dest).isVarying = true ∨
      (en.giveUpPhi s block dest ty).1.table.rangeOf dest = en.narrow s block dest ty .varying := by
  unfold giveUpPhi
  dsimp only
  split
  · left
    simp only [EngineState.store, RangeTable.rangeOf_update_varying]
    rfl
  · rcases RangeTable.rangeOf_update_self s.table dest (en.narrow s block dest ty .varying) with
      same | unknown
    · exact .inr same
    · left
      simp only [EngineState.store, unknown]
      rfl

/-- After a visit nothing is known about a merge, or its range comes from its operands. -/
theorem visitPhi_computed (en : Engine) (s : EngineState) (block : BlockId) (phi : Phi) :
    ((en.visitPhi s block phi).1.table.rangeOf phi.dest).isVarying = true ∨
      ∃ before : EngineState, before.table = s.table ∧
        en.Computed before block phi.dest (s.table.typeOf phi.dest) (en.mergedRange s block phi)
          ((en.visitPhi s block phi).1.table.rangeOf phi.dest) := by
  obtain ⟨before, ⟨phiEdges, rfl⟩, direct | ⟨old, widened, hwiden, direct⟩ | givenUp⟩ :=
    visitPhi_cases en s block phi
  · rw [direct]
    rcases RangeTable.rangeOf_update_self s.table phi.dest (en.mergedRange s block phi) with
      same | unknown
    · refine .inr ⟨s, rfl, ?_⟩
      simp only [EngineState.store, same]
      exact .merged
    · left
      simp only [EngineState.store, unknown]
      rfl
  · rw [direct]
    rcases RangeTable.rangeOf_update_self s.table phi.dest widened with same | unknown
    · refine .inr ⟨{ s with phiEdges }, rfl, ?_⟩
      simp only [EngineState.store, same]
      exact .widened hwiden
    · left
      simp only [EngineState.store, unknown]
      rfl
  · rw [givenUp]
    refine (giveUpPhi_computed en { s with phiEdges } block phi.dest _).imp id fun same => ?_
    rw [same]
    exact ⟨{ s with phiEdges }, rfl, .narrowed⟩

/-- What a visit to a place brings about. -/
structure Simulated (en : Engine) (seen : EngineState → Prop) (s : EngineState) (site : Site)
    (s' : EngineState) : Prop where
  onward : s.Advance s'
  /-- Only the name that the place sets can have another range. -/
  only : ∀ n, s'.table.rangeOf n ≠ s.table.rangeOf n → Sets en.f n site
  stable : en.Stable seen s' site ∨ en.Pending s' site
  settled : ∀ x ∈ s'.settled, en.Done s' x

theorem Simulated.of_visits (visits : Nat) {site : Site}
    (h : en.Simulated seen { s with visits } site s') : en.Simulated seen s site s' :=
  ⟨(s.visits_advance visits).trans h.onward, h.only, h.stable, h.settled⟩

/-- The state after a visit has stored a range for a name, with its uses waiting if need be. -/
def react (s : EngineState) (site : Site) (n : NameId) : Status → EngineState
  | .unchanged => s
  | .changed => s.queueName n false
  | .varying => (s.settle site).queueName n true

theorem Simulated.of_stores {site : Site} {n : NameId} {status : Status}
    (h : s.Stores s' n status) (sets : Sets en.f n site) (settled : ∀ x ∈ s.settled, en.Done s x)
    (done : ∀ t : EngineState, (t.table.rangeOf n).isVarying = true → en.Done t site)
    (stable : ∀ t, s.Advance t → t.table = s'.table →
      en.Stable seen t site ∨ en.Pending t site) :
    en.Simulated seen s site (react s' site n status) := by
  -- what the three states have in common: the ranges of `s'`, and `site` as the only new place
  have simulated : ∀ t, s.Advance t → t.table = s'.table →
      (∀ x ∈ t.settled, x ∈ s.settled ∨ x = site ∧ status = .varying) →
      en.Simulated seen s site t := by
    intro t onward table places
    refine ⟨onward, ?_, stable t onward table, ?_⟩
    · intro m differs
      rw [table] at differs
      have same : m = n := Classical.byContradiction fun other => differs (h.rangeOf_of_ne other)
      rw [same]
      exact sets
    · intro x hx
      rcases places x hx with before | ⟨rfl, gaveUp⟩
      · exact (settled x before).advance onward
      · refine done t ?_
        rw [table]
        exact h.gaveUp gaveUp
  have kept := h.settled
  cases status with
  | unchanged => exact simulated _ h.advance_of_unchanged rfl fun x hx => .inl (kept ▸ hx)
  | changed =>
      refine simulated _ (h.advance_queueName false) (EngineState.queueName_table ..) fun x hx => ?_
      rw [react, EngineState.queueName_settled, kept] at hx
      exact .inl hx
  | varying =>
      rw [react, EngineState.queueName_settle]
      refine simulated _ ((h.advance_queueName true).trans (EngineState.settle_advance _ site))
        (EngineState.queueName_table ..) fun x hx => ?_
      rcases List.mem_cons.mp hx with rfl | hx
      · exact .inr ⟨rfl, rfl⟩
      · rw [EngineState.queueName_settled, kept] at hx
        exact .inl hx

/-- A place that is settled without a range opens all edges that leave it. -/
theorem Simulated.of_settle {site : Site} (edgeBound : s.executableEdges.length = en.f.edges.length)
    (settled : ∀ x ∈ s.settled, en.Done s x)
    (done : ∀ t : EngineState, (∀ e ∈ en.openEdges site, t.edgeExecutable e = true) →
      t.table = s.table → en.Done t site) :
    en.Simulated seen s site ((en.openEdges site).foldl EngineState.addEdge (s.settle site)) := by
  have onward := (s.settle_advance site).trans
    (EngineState.foldl_addEdge_advance _ (en.openEdges site))
  obtain ⟨table, places⟩ := (s.settle site).foldl_addEdge_frame (en.openEdges site)
  have isDone := done _ (fun e he => EngineState.edgeExecutable_foldl_addEdge he ?_) table
  · refine ⟨onward, ?_, .inl isDone.stable, ?_⟩
    · intro n differs
      rw [table] at differs
      exact absurd rfl differs
    · intro x hx
      rw [places] at hx
      rcases List.mem_cons.mp hx with rfl | hx
      · exact isDone
      · exact (settled x hx).advance onward
  · cases site with
    | phi block index => cases he
    | stmt block index => cases he
    | terminator block =>
        obtain ⟨edge, found, -⟩ := Function.mem_succEdges.mp he
        have bound := Function.edge?_lt found
        rw [← edgeBound] at bound
        exact bound

theorem simulate_phi (hf : en.f.Valid) (bound : s.queued.length = en.f.nameCount)
    (settled : ∀ x ∈ s.settled, en.Done s x) {block : BlockId} {index : Nat} {phi : Phi}
    (hphi : en.f.phiAt? block index = some phi)
    (new : s.settled.contains (.phi block index) = false) :
    en.Simulated seen s (.phi block index) (en.simulate s (.phi block index)) := by
  have visited : en.simulate s (.phi block index) =
      react (en.visitPhi { s with visits := s.visits + 1 } block phi).1 (.phi block index) phi.dest
        (en.visitPhi { s with visits := s.visits + 1 } block phi).2 := by
    rw [Function.phiAt?] at hphi
    simp only [simulate, new, visit, hphi, Bool.false_eq_true, if_false]
    rfl
  rw [visited]
  have sets : Sets en.f phi.dest (.phi block index) := ⟨phi, hphi, rfl⟩
  refine .of_visits (s.visits + 1) (.of_stores
    (visitPhi_stores en { s with visits := s.visits + 1 } block phi) sets settled ?_ ?_)
  · intro t varying phi' hphi'
    rw [hphi] at hphi'
    cases hphi'
    exact varying
  · intro t onward table
    have computed := visitPhi_computed en { s with visits := s.visits + 1 } block phi
    rw [← table] at computed
    refine (phiStable_or_pending hf bound ((s.visits_advance _).trans onward) hphi ?_).imp ?_ id
    · refine computed.imp id ?_
      rintro ⟨before, same, result⟩
      exact ⟨before, by rw [same], fun _ _ _ _ => by rw [same], result⟩
    · intro stable phi' hphi'
      rw [hphi] at hphi'
      cases hphi'
      exact stable

theorem simulate_stmt (hf : en.f.Valid) (now : seen s) (bound : s.queued.length = en.f.nameCount)
    (settled : ∀ x ∈ s.settled, en.Done s x) {block : BlockId} {index : Nat} {dest : NameId}
    {rhs : Rhs} (hstmt : en.f.stmtAt? block index = some (.assign dest rhs))
    (new : s.settled.contains (.stmt block index) = false) :
    en.Simulated seen s (.stmt block index) (en.simulate s (.stmt block index)) := by
  have visited : en.simulate s (.stmt block index) =
      react (en.visitStmt { s with visits := s.visits + 1 } dest rhs).1 (.stmt block index) dest
        (en.visitStmt { s with visits := s.visits + 1 } dest rhs).2 := by
    rw [Function.stmtAt?] at hstmt
    simp only [simulate, new, visit, hstmt, Bool.false_eq_true, if_false]
    rfl
  rw [visited]
  have sets : Sets en.f dest (.stmt block index) := ⟨rhs, hstmt⟩
  refine .of_visits (s.visits + 1)
    (.of_stores (EngineState.store_stores { s with visits := s.visits + 1 } dest _) sets settled
      ?_ ?_)
  · intro t varying dest' rhs' hstmt'
    rw [hstmt] at hstmt'
    cases hstmt'
    exact varying
  · intro t onward table
    have computed : (t.table.rangeOf dest).isVarying = true ∨ t.table.rangeOf dest =
        s.table.query.rhsResult (s.table.typeOf dest) rhs en.config.nonCallExceptions := by
      rw [table]
      refine (RangeTable.rangeOf_update_self s.table dest _).symm.imp ?_ id
      intro unknown
      exact (congrArg ValueRange.isVarying unknown).trans rfl
    have known : (t.table.rangeOf dest).isVarying = true ∨ ∃ before : EngineState, seen before ∧
        before.table.names = s.table.names ∧
        (∀ n ∈ rhs.usedNames, before.table.rangeOf n = s.table.rangeOf n) ∧
        t.table.rangeOf dest =
          before.table.query.rhsResult (s.table.typeOf dest) rhs en.config.nonCallExceptions :=
      computed.imp id fun same => ⟨s, now, rfl, fun _ _ => rfl, same⟩
    refine (stmtStable_or_pending hf bound ((s.visits_advance _).trans onward) hstmt
      known).imp ?_ id
    intro stable dest' rhs' hstmt'
    rw [hstmt] at hstmt'
    cases hstmt'
    exact stable

theorem simulate_terminator (hf : en.f.Valid)
    (edgeBound : s.executableEdges.length = en.f.edges.length)
    (settled : ∀ x ∈ s.settled, en.Done s x) {block : BlockId} {b : Block}
    (hb : en.f.block? block = some b) (new : s.settled.contains (.terminator block) = false) :
    en.Simulated seen s (.terminator block) (en.simulate s (.terminator block)) := by
  cases decided : decidedTarget? s.table.query b.terminator with
  | none =>
      have visited : en.simulate s (.terminator block) =
          (en.openEdges (.terminator block)).foldl EngineState.addEdge
            (EngineState.settle { s with visits := s.visits + 1 } (.terminator block)) := by
        simp only [simulate, new, visit, hb, visitTerminator, decided, Bool.false_eq_true, if_false]
      rw [visited]
      exact .of_visits (s.visits + 1) (.of_settle edgeBound settled fun t opened _ => opened)
  | some target =>
      have leaves := List.mem_append_left b.abnormal (Query.mem_targets_of_decidedTarget? decided)
      obtain ⟨edge, found⟩ := hf.findEdge?_target hb leaves
      have visited : en.simulate s (.terminator block) =
          EngineState.addEdge { s with visits := s.visits + 1 } edge := by
        simp only [simulate, new, visit, hb, visitTerminator, decided, found, Bool.false_eq_true,
          if_false]
      obtain ⟨e, he, -⟩ := Function.findEdge?_eq_some found
      have onward := (s.visits_advance (s.visits + 1)).trans (EngineState.addEdge_advance _ edge)
      obtain ⟨table, places⟩ := EngineState.addEdge_frame { s with visits := s.visits + 1 } edge
      have executable : (EngineState.addEdge { s with visits := s.visits + 1 } edge).edgeExecutable
          edge = true := by
        have inBounds := Function.edge?_lt he
        rw [← edgeBound] at inBounds
        exact EngineState.edgeExecutable_addEdge.mpr (.inr ⟨rfl, inBounds⟩)
      rw [visited]
      refine ⟨onward, ?_, .inl ?_, ?_⟩
      · intro n differs
        rw [table] at differs
        exact absurd rfl differs
      · intro b' hb' _
        rw [hb] at hb'
        cases hb'
        refine .inr ⟨target, edge, ?_, found, executable⟩
        rw [table]
        exact decided
      · intro x hx
        rw [places] at hx
        exact (settled x hx).advance onward

/-- A place where nothing is set is settled by its first visit. -/
theorem simulate_empty {site : Site} (edgeBound : s.executableEdges.length = en.f.edges.length)
    (settled : ∀ x ∈ s.settled, en.Done s x) (new : s.settled.contains site = false)
    (empty : ∀ t, en.visit t site = (t, .varying, none)) (nothing : ∀ n, ¬ Sets en.f n site) :
    en.Simulated seen s site (en.simulate s site) := by
  have visited : en.simulate s site = (en.openEdges site).foldl EngineState.addEdge
      (EngineState.settle { s with visits := s.visits + 1 } site) := by
    simp only [simulate, new, empty, Bool.false_eq_true, if_false]
  rw [visited]
  refine .of_visits (s.visits + 1) (.of_settle edgeBound settled fun t opened _ => ?_)
  cases site with
  | phi block index => exact fun phi hphi => absurd ⟨phi, hphi, rfl⟩ (nothing phi.dest)
  | stmt block index => exact fun dest rhs hstmt => absurd ⟨rhs, hstmt⟩ (nothing dest)
  | terminator block => exact opened

/-- A visit leaves its place stable or waiting, and loses nothing. -/
theorem simulate_simulated (hf : en.f.Valid) (now : seen s)
    (bound : s.queued.length = en.f.nameCount)
    (edgeBound : s.executableEdges.length = en.f.edges.length)
    (settled : ∀ x ∈ s.settled, en.Done s x) (site : Site) :
    en.Simulated seen s site (en.simulate s site) := by
  cases known : s.settled.contains site with
  | true =>
      have same : en.simulate s site = s := by
        simp only [simulate, known, if_true]
      rw [same]
      have done := settled site (List.contains_iff_mem.mp known)
      exact ⟨.refl s, fun _ differs => absurd rfl differs, .inl done.stable, settled⟩
  | false =>
      cases site with
      | phi block index =>
          cases hphi : en.f.phiAt? block index with
          | some phi => exact simulate_phi hf bound settled hphi known
          | none =>
              refine simulate_empty edgeBound settled known (fun t => ?_) ?_
              · rw [Function.phiAt?] at hphi
                simp only [visit, hphi]
              · rintro n ⟨phi, hphi', -⟩
                rw [hphi] at hphi'
                cases hphi'
      | stmt block index =>
          by_cases assigns : ∃ dest rhs, en.f.stmtAt? block index = some (.assign dest rhs)
          · obtain ⟨dest, rhs, hstmt⟩ := assigns
            exact simulate_stmt hf now bound settled hstmt known
          · refine simulate_empty edgeBound settled known (fun t => ?_) ?_
            · simp only [visit]
              split
              · next dest rhs hstmt => exact absurd ⟨dest, rhs, hstmt⟩ assigns
              · rfl
            · rintro n ⟨rhs, hstmt⟩
              exact assigns ⟨n, rhs, hstmt⟩
      | terminator block =>
          cases hb : en.f.block? block with
          | some b => exact simulate_terminator hf edgeBound settled hb known
          | none =>
              refine simulate_empty edgeBound settled known (fun t => ?_) fun n h => h
              simp only [visit, hb]

end Visit

end RangeFlow.Engine
