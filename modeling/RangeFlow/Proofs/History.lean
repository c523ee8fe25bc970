import Mathlib.Data.List.Destutter
import RangeFlow.Proofs.Propagation

/-! # The states of a run

Between neighbours in the history of a run lies at most one visit, so what holds for every visit can
be added up along the history.
-/

namespace RangeFlow

/-- From one state over those of a list to another, each step in the relation. -/
inductive Path {σ : Type} (R : σ → σ → Prop) : σ → List σ → σ → Prop where
  | nil (s : σ) : Path R s [] s
  | cons {s t u : σ} {l : List σ} (first : R s t) (rest : Path R t l u) : Path R s (t :: l) u

namespace Path

variable {σ α : Type} {R : σ → σ → Prop} {s t u : σ} {l m : List σ}

theorem append (h : Path R s l t) (h' : Path R t m u) : Path R s (l ++ m) u := by
  induction h with
  | nil => exact h'
  | cons first _ ih => exact .cons first (ih h')

/-- The states of a fold, if each step of it is in the relation. -/
theorem scanl {f : σ → α → σ} (step : ∀ s x, R s (f s x)) (first : R s t) (xs : List α) :
    Path R s (xs.scanl f t) (xs.foldl f t) := by
  induction xs generalizing s t with
  | nil =>
      rw [List.scanl_nil]
      exact .cons first (.nil t)
  | cons x xs ih =>
      rw [List.scanl_cons]
      exact .cons first (ih (step t x))

/-- What each step keeps holds at the end, and a measure that grows with each change of a feature
    grows by the number of its changes. -/
theorem length_destutter_le {β : Type} [DecidableEq β] {Inv : σ → Prop} {feature : σ → β}
    {level : σ → Nat} (step : ∀ s t, Inv s → R s t → Inv t ∧
      (feature t = feature s ∧ level s ≤ level t ∨ level s < level t))
    (h : Path R s l u) (inv : Inv s) : Inv u ∧
      ((l.map feature).destutter' (· ≠ ·) (feature s)).length + level s ≤ level u + 1 := by
  induction h with
  | nil s => exact ⟨inv, Nat.le_of_eq (Nat.add_comm 1 (level s))⟩
  | @cons s t u l first rest ih =>
      obtain ⟨invT, climbs⟩ := step s t inv first
      obtain ⟨invU, changes⟩ := ih invT
      refine ⟨invU, ?_⟩
      rw [List.map_cons]
      by_cases same : feature t = feature s
      · rw [List.destutter'_cons_neg (R := (· ≠ ·)) _ (by simp [same]), ← same]
        omega
      · have grows := climbs.resolve_left fun kept => same kept.1
        rw [List.destutter'_cons_pos (R := (· ≠ ·)) _ (Ne.symm same), List.length_cons]
        omega

/-- What each step keeps holds at the end. -/
theorem keeps {Inv : σ → Prop} (step : ∀ s t, Inv s → R s t → Inv t) (h : Path R s l u)
    (inv : Inv s) : Inv u := by
  induction h with
  | nil => exact inv
  | cons first _ ih => exact ih (step _ _ inv first)

end Path

namespace EngineState

@[simp] theorem queueName_phiEdges (s : EngineState) (n : NameId) (varying : Bool) :
    (s.queueName n varying).phiEdges = s.phiEdges := by
  unfold queueName
  dsimp only
  split
  · rfl
  · split <;> rfl

theorem foldl_addEdge_phiEdges (s : EngineState) (edges : List EdgeId) :
    (edges.foldl addEdge s).phiEdges = s.phiEdges := by
  induction edges generalizing s with
  | nil => rfl
  | cons e rest ih =>
      refine (ih _).trans ?_
      unfold addEdge
      split <;> rfl

end EngineState

namespace Engine

variable {en : Engine} {s s' : EngineState}

/-- One visit at most: ranges are kept or given up, or an assignment is computed, or a merge is. -/
inductive Move (en : Engine) (s s' : EngineState) : Prop where
  | keep (edges : ∀ e, s.edgeExecutable e = true → s'.edgeExecutable e = true)
      (names : s'.table.names = s.table.names)
      (ranges : ∀ n, s'.table.rangeOf n = s.table.rangeOf n ∨ s'.table.rangeOf n = .varying)
      (phiEdges : s'.phiEdges = s.phiEdges)
  | assign (edges : ∀ e, s.edgeExecutable e = true → s'.edgeExecutable e = true)
      {block : BlockId} {index : Nat} {dest : NameId} {rhs : Rhs}
      (hstmt : en.f.stmtAt? block index = some (.assign dest rhs))
      (table : s'.table = (en.visitStmt s dest rhs).1.table) (phiEdges : s'.phiEdges = s.phiEdges)
  | merge (edges : ∀ e, s.edgeExecutable e = true → s'.edgeExecutable e = true)
      {block : BlockId} {index visits : Nat} {phi : Phi}
      (hphi : en.f.phiAt? block index = some phi)
      (table : s'.table = (en.visitPhi { s with visits } block phi).1.table)
      (phiEdges : s'.phiEdges = (en.visitPhi { s with visits } block phi).1.phiEdges)

theorem visitPhi_table (en : Engine) (s : EngineState) (block : BlockId) (phi : Phi) :
    ∃ vr, (en.visitPhi s block phi).1.table = (s.table.update phi.dest vr).1 := by
  obtain ⟨vr, phiEdges, stored, -⟩ := (visitPhi_stores en s block phi).stored
  exact ⟨vr, congrArg EngineState.table stored⟩

namespace Move

theorem edges (h : en.Move s s') {e : EdgeId} (executable : s.edgeExecutable e = true) :
    s'.edgeExecutable e = true := by
  cases h with
  | keep edges => exact edges e executable
  | assign edges => exact edges e executable
  | merge edges => exact edges e executable

/-- What comes after a visit may open edges and change work lists and blocks. -/
theorem extend {t : EngineState} (h : en.Move s t) (table : s'.table = t.table)
    (phiEdges : s'.phiEdges = t.phiEdges)
    (edges : ∀ e, t.edgeExecutable e = true → s'.edgeExecutable e = true) : en.Move s s' := by
  have opened : ∀ e, s.edgeExecutable e = true → s'.edgeExecutable e = true :=
    fun e executable => edges e (h.edges executable)
  cases h with
  | keep _ names ranges phiEdges' =>
      rw [← table] at names ranges
      exact .keep opened names ranges (phiEdges.trans phiEdges')
  | assign _ hstmt table' phiEdges' =>
      exact .assign opened hstmt (table.trans table') (phiEdges.trans phiEdges')
  | merge _ hphi table' phiEdges' =>
      exact .merge opened hphi (table.trans table') (phiEdges.trans phiEdges')

theorem of_table (edges : ∀ e, s.edgeExecutable e = true → s'.edgeExecutable e = true)
    (table : s'.table = s.table) (phiEdges : s'.phiEdges = s.phiEdges) : en.Move s s' :=
  .keep edges (congrArg RangeTable.names table) (fun _ => .inl (by rw [table])) phiEdges

theorem of_same (edges : s'.executableEdges = s.executableEdges) (table : s'.table = s.table)
    (phiEdges : s'.phiEdges = s.phiEdges) : en.Move s s' := by
  refine .of_table (fun e executable => ?_) table phiEdges
  rw [EngineState.edgeExecutable, edges]
  exact executable

theorem names (move : en.Move s s') : s'.table.names = s.table.names := by
  cases move with
  | keep _ names => exact names
  | assign _ _ table =>
      rw [table]
      exact RangeTable.update_names _ _ _
  | @merge _ block _ visits phi _ table =>
      obtain ⟨vr, stored⟩ := visitPhi_table en { s with visits } block phi
      rw [table, stored]
      exact RangeTable.update_names _ _ _

theorem varying (move : en.Move s s') {n : NameId} (h : (s.table.rangeOf n).isVarying = true) :
    (s'.table.rangeOf n).isVarying = true := by
  cases move with
  | keep _ _ ranges =>
      rcases ranges n with same | varying
      · rw [same]
        exact h
      · rw [varying]
        rfl
  | assign _ _ table =>
      rw [table]
      exact RangeTable.isVarying_update h
  | @merge _ block _ visits phi _ table =>
      obtain ⟨vr, stored⟩ := visitPhi_table en { s with visits } block phi
      rw [table, stored]
      exact RangeTable.isVarying_update h

end Move

theorem foldl_addEdge_move (en : Engine) (s : EngineState) (edges : List EdgeId) :
    en.Move s (edges.foldl EngineState.addEdge s) :=
  .of_table (s.foldl_addEdge_advance edges).edges (s.foldl_addEdge_frame edges).1
    (s.foldl_addEdge_phiEdges edges)

theorem visit_move (en : Engine) (s : EngineState) (visits : Nat) (site : Site) :
    en.Move s (en.visit { s with visits } site).1 := by
  have same : en.Move s { s with visits } := .of_same rfl rfl rfl
  have opened : ∀ edge, en.Move s (EngineState.addEdge { s with visits } edge) :=
    fun edge => .of_table (EngineState.addEdge_advance { s with visits } edge).edges
      (EngineState.addEdge_frame _ edge).1 (EngineState.foldl_addEdge_phiEdges _ [edge])
  unfold visit
  split
  · next block index =>
      split
      · next phi hphi =>
          refine .merge (fun e executable => ?_) hphi rfl rfl
          obtain ⟨_, _, stored, -⟩ := (visitPhi_stores en { s with visits } block phi).stored
          dsimp only
          rw [stored]
          exact executable
      · exact same
  · split
    · next dest rhs hstmt => exact .assign (fun _ executable => executable) hstmt rfl rfl
    · exact same
  · split
    · dsimp only [visitTerminator]
      split
      · split
        · exact opened _
        · exact same
      · exact same
    · exact same

/-- A visit to a place is a move. -/
theorem simulate_move (en : Engine) (s : EngineState) (site : Site) :
    en.Move s (en.simulate s site) := by
  unfold simulate
  split
  · exact .of_same rfl rfl rfl
  · have visited := en.visit_move s (s.visits + 1) site
    have queued : ∀ (t : EngineState) n varying, en.Move s t →
        en.Move s (t.queueName n varying) := fun t n varying moved =>
      moved.extend (t.queueName_table n varying) (t.queueName_phiEdges n varying)
        (t.queueName_advance n varying).edges
    have opened : ∀ (t : EngineState) (edges : List EdgeId), en.Move s t →
        en.Move s (edges.foldl EngineState.addEdge t) := fun t edges moved =>
      moved.extend (t.foldl_addEdge_frame edges).1 (t.foldl_addEdge_phiEdges edges)
        (t.foldl_addEdge_advance edges).edges
    generalize en.visit { s with visits := s.visits + 1 } site = result at visited ⊢
    obtain ⟨t, status, output⟩ := result
    have settled : en.Move s (t.settle site) :=
      visited.extend rfl rfl fun _ executable => executable
    cases status with
    | unchanged => exact visited
    | changed =>
        cases output with
        | none => exact visited
        | some n => exact queued t n false visited
    | varying =>
        cases output with
        | none => exact opened _ _ settled
        | some n => exact opened _ _ (queued _ n true settled)

theorem blockHistory_path {t : EngineState} (first : en.Move t s) (block : BlockId) :
    Path en.Move t (en.blockHistory s block) (en.simulateBlock s block) := by
  unfold blockHistory
  cases hb : en.f.block? block with
  | none =>
      simp only [simulateBlock, hb]
      exact .cons first (.nil s)
  | some b =>
      rw [simulateBlock_eq hb]
      -- the merges are visited first; the rest of the block only when it is new
      refine Path.append (.scanl (fun s i => en.simulate_move s (.phi block i)) first _) ?_
      change Path en.Move (en.visitPhis s block b) _ _
      split
      · exact .nil _
      · refine Path.append (.scanl (fun s i => en.simulate_move s (.stmt block i)) ?_ _)
          (.cons (foldl_addEdge_move en _ (en.sureEdges block b)) (.cons ?_ (.nil _)))
        · exact .of_same rfl rfl rfl
        unfold enter
        split
        · exact en.simulate_move _ (.terminator block)
        · exact .of_same rfl rfl rfl

theorem nameHistory_path {t : EngineState} (first : en.Move t s) (name : NameId) :
    Path en.Move t (en.nameHistory s name) (en.processName s name) := by
  unfold nameHistory processName
  refine Path.scanl (fun s site => ?_) ?_ _
  · split
    · exact en.simulate_move s site
    · exact .of_same rfl rfl rfl
  · exact first.extend rfl rfl fun _ executable => executable

theorem stepHistory_path (step : en.step? s = some s') :
    Path en.Move s (en.stepHistory s) s' := by
  rcases step?_cases step with ⟨id, rest, -, ⟨e, -, rfl, states⟩ | ⟨-, rfl, states⟩⟩ |
    ⟨n, rest, -, rfl, states⟩ | ⟨n, rest, -, rfl, states⟩ <;> rw [states]
  · exact blockHistory_path (t := s) (s := { s with edgeWork := rest }) (.of_same rfl rfl rfl) e.dst
  · exact .cons (.of_same rfl rfl rfl) (.nil _)
  · exact nameHistory_path (t := s) (s := { s with varyingWork := rest }) (.of_same rfl rfl rfl) n
  · exact nameHistory_path (t := s) (s := { s with changedWork := rest }) (.of_same rfl rfl rfl) n

theorem propagateHistory_path (en : Engine) (fuel : Nat) (s : EngineState) :
    Path en.Move s (en.propagateHistory fuel s) (en.propagate fuel s).1 := by
  induction fuel generalizing s with
  | zero => exact .nil s
  | succ fuel ih =>
      unfold propagateHistory propagate
      split
      · exact .nil s
      · cases step : en.step? s with
        | some next => exact (stepHistory_path step).append (ih next)
        | none => exact .nil s

/-- Every range is what it was, or has been given up. -/
def OnlyGivesUp (s s' : EngineState) : Prop :=
  ∀ n, s'.table.rangeOf n = s.table.rangeOf n ∨ s'.table.rangeOf n = .varying

theorem OnlyGivesUp.store_varying (h : OnlyGivesUp s s') (m : NameId) :
    OnlyGivesUp s (s'.store m .varying).1 := by
  intro n
  by_cases same : n = m
  · subst same
    exact .inr (RangeTable.rangeOf_update_varying s'.table n)
  · have other := RangeTable.rangeOf_update_of_ne s'.table .varying same
    exact (h n).imp other.trans other.trans

theorem presettle_onlyGivesUp (en : Engine) (s : EngineState) : OnlyGivesUp s (en.presettle s) := by
  refine List.foldlRecOn (motive := OnlyGivesUp s) _ _ (fun _ => .inl rfl) ?_
  rintro t kept ⟨b, block⟩ -
  refine List.foldlRecOn (motive := OnlyGivesUp s) _ _
    (List.foldlRecOn (motive := OnlyGivesUp s) _ _ kept ?_) ?_
  · rintro t kept ⟨phi, index⟩ -
    simp only [presettlePhi]
    split
    · exact kept
    · exact kept.store_varying phi.dest
  · rintro t kept ⟨stmt, index⟩ -
    simp only [presettleStmt]
    split
    · exact kept
    · cases stmt with
      | assign dest rhs => exact kept.store_varying dest
      | store | nop => exact kept

theorem presettle_move (en : Engine) : en.Move en.start (en.presettle en.start) := by
  obtain ⟨⟨table, settled, frame⟩, names, -⟩ := presettle_prepared en
  refine .keep (fun e executable => ?_) names (en.presettle_onlyGivesUp en.start) (by rw [frame])
  rw [frame]
  exact executable

/-- Neighbours in the history are one move apart. -/
theorem history_path (en : Engine) : ∃ states, en.history = en.start :: states ∧
    Path en.Move en.start states (en.propagate en.stepLimit
      (en.simulateBlock (en.presettle en.start) en.f.entry)).1 := by
  have visits := (blockHistory_path (.of_same rfl rfl rfl) en.f.entry).append
    (propagateHistory_path en en.stepLimit
      (en.simulateBlock (en.presettle en.start) en.f.entry))
  exact ⟨_, rfl, .cons en.presettle_move visits⟩

/-- What each visit keeps holds at the end of a run. -/
theorem run_keeps {P : EngineState → Prop} (start : P en.start)
    (step : ∀ s t, P s → en.Move s t → P t) (run : en.run = (s, true)) : P s := by
  obtain ⟨states, -, path⟩ := en.history_path
  rw [run_eq_propagate run] at path
  exact path.keeps step start

end Engine

end RangeFlow
