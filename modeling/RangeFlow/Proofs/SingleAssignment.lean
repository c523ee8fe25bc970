import RangeFlow.Proofs.Dominance
import RangeFlow.Proofs.Execution
import RangeFlow.Proofs.Typing
import RangeFlow.Proofs.Wrapping

/-! # What holds in every execution

Where the definition of a name dominates a point, the name still has the value its right-hand side
gives there: no name that it was computed from has been set again. All values belong to the types
of their names. Both are preserved by every step, so they hold of every execution.
-/

namespace RangeFlow

/-- Every value belongs to the type of its name. -/
def Env.Typed (f : Function) (env : Env) : Prop :=
  ∀ n v, env n = some v → (f.typeOf n).Admits v

theorem admits_effectiveType {config : Config} {ty : ScalarType} {v : Int} :
    (config.effectiveType ty).Admits v ↔ ty.Admits v := by
  simp [ScalarType.Admits]

theorem Env.Typed.operand {f : Function} {env : Env} (h : env.Typed f) {ty : ScalarType}
    {o : Operand} {v : Int} (typed : f.Typed ty o) (hv : env.operand o = some v) :
    ty.Admits v := by
  cases o with
  | name n =>
      rw [← typed.2]
      exact h n v hv
  | const c =>
      cases hv
      exact typed

namespace Function

/-- What a right-hand side gives to a name is a value of its type. -/
theorem Valid.evaluates_admits {f : Function} (hf : f.Valid) {config : Config} {env : Env}
    (typed : env.Typed f) {block : BlockId} {index : Nat} {dest : NameId} {rhs : Rhs} {v : Int}
    (h : f.stmtAt? block index = some (.assign dest rhs))
    (hv : f.Evaluates config env dest v rhs) : (f.typeOf dest).Admits v := by
  obtain ⟨_, -, check⟩ := bind_eq_ok.mp (hf.checkRhs h)
  cases rhs with
  | copy x => exact typed.operand (checkOperand_eq_ok.mp check) hv
  | unary op x =>
      obtain ⟨a, -, hfold⟩ := hv
      rw [← admits_effectiveType]
      split at hfold
      · obtain ⟨exact, -, rfl⟩ := UnaryOp.fold_eq_some hfold
        exact fun _ => ScalarType.wrap_fits _ _
      · exact hfold
  | binary op x y =>
      obtain ⟨a, b, -, -, hfold⟩ := hv
      rw [← admits_effectiveType]
      intro tracked
      obtain ⟨exact, -, rfl⟩ := BinaryOp.fold_eq_some (hfold tracked)
      exact ScalarType.wrap_fits _ _
  | compare op x y =>
      obtain ⟨truth, -, hwrap⟩ := hv
      rw [← admits_effectiveType]
      intro tracked
      rw [hwrap tracked]
      exact ScalarType.wrap_fits _ _
  | select cond x y =>
      obtain ⟨truth, -, hchosen⟩ := hv
      obtain ⟨_, -, check⟩ := bind_eq_ok.mp check
      obtain ⟨_, hx, hy⟩ := bind_eq_ok.mp check
      cases truth with
      | true => exact typed.operand (checkOperand_eq_ok.mp hx) hchosen
      | false => exact typed.operand (checkOperand_eq_ok.mp hy) hchosen
  | assert subject predicate =>
      exact typed.operand (o := .name subject) (checkOperand_eq_ok.mp check) hv
  | addressOf => exact admits_effectiveType.mp hv.2
  | load address => exact admits_effectiveType.mp hv.2
  | call args nonnull => exact admits_effectiveType.mp hv.2.1

/-- The target of a step from block to block is a target of the block that is left. -/
theorem Leaves.mem_targets {f : Function} {s : ExecState} {target : BlockId}
    (h : f.Leaves s target) : ∃ b, f.block? s.block = some b ∧ s.index = b.stmts.length ∧
      target ∈ b.terminator.targets ++ b.abnormal := by
  obtain ⟨b, hb, atEnd, selected | raised⟩ := h
  · refine ⟨b, hb, atEnd, List.mem_append_left _ ?_⟩
    cases ht : b.terminator with
    | jump next =>
        rw [ht] at selected
        exact List.mem_singleton.mpr selected
    | branch cond onTrue onFalse =>
        rw [ht] at selected
        obtain ⟨truth, -, rfl⟩ := selected
        cases truth <;> simp [Terminator.targets]
    | switch index cases default =>
        rw [ht] at selected
        obtain ⟨v, -, rfl⟩ := selected
        cases hfind : cases.find? (·.matches v) with
        | none => simp [Terminator.targets]
        | some case =>
            have member := List.mem_of_find?_eq_some hfind
            simp only [Terminator.targets, Option.map_some, Option.getD_some]
            exact List.mem_append_left _ (List.mem_map_of_mem member)
    | «return» value =>
        rw [ht] at selected
        exact selected.elim
    | unreachable =>
        rw [ht] at selected
        exact selected.elim
  · exact ⟨b, hb, atEnd, List.mem_append_right _ raised⟩

/-- The values at a point of an execution agree with the text of the function. -/
structure Consistent (f : Function) (config : Config) (block : BlockId) (index : Nat)
    (env : Env) : Prop where
  way : ∃ passed, f.Path block passed
  typed : env.Typed f
  /-- A name whose definition dominates the point has the value of its right-hand side. -/
  defined : ∀ n d i rhs, f.stmtAt? d i = some (.assign n rhs) →
    (DefSite.stmt d i).Dominates f block index →
    ∃ v, env n = some v ∧ f.Evaluates config env n v rhs

theorem Initial.consistent {f : Function} {config : Config} {env : Env}
    (h : f.Initial config env) : f.Consistent config f.entry 0 env := by
  refine ⟨⟨[], .entry⟩, ?_, ?_⟩
  · intro n v hv
    have origin := h n
    split at origin
    · obtain ⟨w, hw, admits, -⟩ := origin
      have same : v = w := Option.some.inj (hv.symm.trans hw)
      rw [same]
      exact admits_effectiveType.mp admits
    · rw [origin] at hv
      cases hv
  · intro n d i rhs hstmt dominates
    -- nothing in a block dominates the head of the entry
    rcases dominates d (i + 1) rfl [] .entry with ⟨-, le⟩ | member
    · exact absurd le (by omega)
    · cases member

/-- A statement keeps the state consistent. -/
theorem Consistent.stmt_step {f : Function} (hf : f.Valid) (uses : f.UsesDominated)
    {config : Config} {block : BlockId} {index : Nat} {env env' : Env} {stmt : Stmt}
    (consistent : f.Consistent config block index env)
    (hstmt : f.stmtAt? block index = some stmt) (run : f.Runs config env stmt env') :
    f.Consistent config block (index + 1) env' := by
  obtain ⟨⟨passed, way⟩, typed, defined⟩ := consistent
  have other : ∀ n d i rhs, f.stmtAt? d i = some (.assign n rhs) →
      (DefSite.stmt d i).Dominates f block (index + 1) → (d, i) ≠ (block, index) →
      (DefSite.stmt d i).Dominates f block index := by
    intro n d i rhs _ dominates differs
    refine dominates.before_stmt fun same => differs ?_
    cases same
    rfl
  have unchanged : stmt.dest? = none → f.Consistent config block (index + 1) env := by
    intro nothing
    refine ⟨⟨passed, way⟩, typed, ?_⟩
    intro n d i rhs hstmt' dominates
    refine defined n d i rhs hstmt' (other n d i rhs hstmt' dominates ?_)
    rintro here
    cases here
    rw [hstmt] at hstmt'
    cases hstmt'
    cases nothing
  cases run with
  | @assign dest rhs value hvalue =>
      have site : f.defSite? dest = some (.stmt block index) := hf.defSite?_stmt hstmt rfl
      refine ⟨⟨passed, way⟩, ?_, ?_⟩
      · intro n v hv
        by_cases same : n = dest
        · subst same
          rw [Env.set_self] at hv
          cases hv
          exact hf.evaluates_admits typed hstmt hvalue
        · rw [Env.set_of_ne env value same] at hv
          exact typed n v hv
      · intro n d i rhs' hstmt' dominates
        by_cases here : (d, i) = (block, index)
        · cases here
          rw [hstmt] at hstmt'
          cases hstmt'
          refine ⟨value, Env.set_self env _ value, hvalue.congr fun m hm => ?_⟩
          have unread := uses.dest_not_read way site hstmt
          exact Env.set_of_ne env value fun same => unread (same ▸ hm)
        · have before := other n d i rhs' hstmt' dominates here
          obtain ⟨v, hv, evaluates⟩ := defined n d i rhs' hstmt' before
          have unread := uses.not_read way site rfl hstmt' before (by omega)
          have kept : n ≠ dest := by
            rintro rfl
            have same := (hf.defSite?_stmt hstmt' rfl).symm.trans site
            cases same
            exact here rfl
          refine ⟨v, ?_, evaluates.congr fun m hm => ?_⟩
          · rw [← hv]
            exact Env.set_of_ne env value kept
          · exact Env.set_of_ne env value fun same => unread (same ▸ hm)
  | store ha hne hv => exact unchanged rfl
  | nop => exact unchanged rfl

/-- Going from block to block keeps the state consistent. -/
theorem Consistent.edge_step {f : Function} (hf : f.Valid) (uses : f.UsesDominated)
    {config : Config} {s : ExecState} {target : BlockId} {t : Block}
    (consistent : f.Consistent config s.block s.index s.env) (leave : f.Leaves s target)
    (ht : f.block? target = some t) :
    f.Consistent config target 0 (t.mergeFrom s.block s.env) := by
  obtain ⟨⟨passed, way⟩, typed, defined⟩ := consistent
  obtain ⟨b, hb, atEnd, member⟩ := leave.mem_targets
  have onward : f.Path target (s.block :: passed) := way.step hb member
  have merged : ∀ phi ∈ t.phis, ∃ j, f.phiAt? target j = some phi := by
    intro phi hphi
    obtain ⟨j, hj⟩ := List.mem_iff_getElem?.mp hphi
    exact ⟨j, phiAt?_eq_some.mpr ⟨t, ht, hj⟩⟩
  refine ⟨⟨_, onward⟩, ?_, ?_⟩
  · intro n v hv
    unfold Block.mergeFrom at hv
    split at hv
    · next phi hfind =>
        have dest : phi.dest = n := by
          have found := List.find?_some hfind
          exact eq_of_beq found
        obtain ⟨j, hphi⟩ := merged phi (List.mem_of_find?_eq_some hfind)
        obtain ⟨o, ho, hvalue⟩ := Option.bind_eq_some_iff.mp hv
        obtain ⟨operand, hoperand, rfl⟩ := Option.map_eq_some_iff.mp ho
        rw [← dest]
        exact typed.operand (hf.phi_typed hphi (List.mem_of_find?_eq_some hoperand)) hvalue
    · exact typed n v hv
  · intro n d i rhs hstmt dominates
    have before : (DefSite.stmt d i).Dominates f s.block s.index := by
      rw [atEnd]
      refine dominates.before_edge hb member ?_ ?_
      · intro d' k place _
        cases place
        omega
      · intro k place
        cases place
        obtain ⟨b', hb', hi⟩ := stmtAt?_eq_some.mp hstmt
        rw [hb] at hb'
        cases hb'
        exact (List.getElem?_eq_some_iff.mp hi).1
    have kept : ∀ m, (∀ j, f.defSite? m ≠ some (.phi target j)) →
        t.mergeFrom s.block s.env m = s.env m := by
      intro m new
      refine Block.mergeFrom_of_not_mem fun hm => ?_
      obtain ⟨phi, hphi, rfl⟩ := List.mem_map.mp hm
      obtain ⟨j, hj⟩ := merged phi hphi
      exact new j (hf.defSite?_phi hj)
    obtain ⟨v, hv, evaluates⟩ := defined n d i rhs hstmt before
    refine ⟨v, ?_, evaluates.congr fun m hm => kept m fun j hsite => ?_⟩
    · rw [kept n fun j hsite => ?_]
      · exact hv
      · rw [hf.defSite?_stmt hstmt rfl] at hsite
        cases hsite
    · exact uses.not_read onward hsite rfl hstmt dominates (by omega) hm

/-- Every execution of a function in single assignment form is consistent. -/
theorem Reaches.consistent {f : Function} (hf : f.Valid) (uses : f.UsesDominated)
    {config : Config} {s : ExecState} (h : f.Reaches config s) :
    f.Consistent config s.block s.index s.env := by
  induction h with
  | start init => exact init.consistent
  | step _ step ih =>
      cases step with
      | stmt hstmt run => exact ih.stmt_step hf uses hstmt run
      | edge leave ht => exact ih.edge_step hf uses leave ht

end Function

end RangeFlow
