import Mathlib.Data.List.Find
import RangeFlow.Proofs.Execution
import RangeFlow.Proofs.Facts
import RangeFlow.Proofs.Renaming
import RangeFlow.Proofs.Splitting

/-! # Executions under other names

A statement or terminator that reads other names does the same, if these have the same types and
values. A merge that knows its predecessors by other numbers takes the same values.
-/

namespace RangeFlow

variable {env env' : Env} {r : NameId → NameId}

theorem Env.operand_rename {o : Operand} (same : ∀ n, o.name? = some n → env' (r n) = env n) :
    env'.operand (o.rename r) = env.operand o := by
  cases o with
  | name n => exact same n rfl
  | const c => rfl

theorem Predicate.Holds.rename {predicate : Predicate} {v : Int}
    (same : ∀ op n, predicate = .compare op (.name n) → env' (r n) = env n)
    (h : predicate.Holds env v) : (predicate.rename r).Holds env' v := by
  cases predicate with
  | compare op limit =>
      obtain ⟨l, hl, holds⟩ := h
      refine ⟨l, ?_, holds⟩
      rw [← hl]
      refine Env.operand_rename fun n hn => same op n ?_
      rw [Operand.name?_eq_some.mp hn]
  | within low high negated => exact h

/-- The environments give the names below a number the same values. -/
def Env.AgreesBelow (count : Nat) (env' env : Env) : Prop := ∀ n < count, env' n = env n

theorem Env.AgreesBelow.set {count : Nat} (h : env'.AgreesBelow count env) (dest : NameId)
    (v : Int) : (env'.set dest v).AgreesBelow count (env.set dest v) := by
  intro n hn
  by_cases same : n = dest
  · rw [same, Env.set_self, Env.set_self]
  · rw [Env.set_of_ne _ _ same, Env.set_of_ne _ _ same, h n hn]

namespace Function

variable {f g : Function} {config : Config} {dest : NameId} {v : Int}

namespace Renames

variable (renames : Renames f g r)

include renames

theorem operandType {ty : ScalarType} {o : Operand}
    (known : ∀ n, o.name? = some n → n < f.nameCount) :
    g.operandType ty (o.rename r) = f.operandType ty o := by
  cases o with
  | const c => rfl
  | name n =>
      have inside := known n rfl
      rw [Operand.rename, operandType_name inside, operandType_name (renames.lt n inside),
        renames.type n inside]

theorem compares {cond : Condition} {truth : Bool}
    (known : ∀ o ∈ [cond.lhs, cond.rhs], ∀ n, o.name? = some n → n < f.nameCount)
    (same : ∀ o ∈ [cond.lhs, cond.rhs], ∀ n, o.name? = some n → env' (r n) = env n)
    (h : f.Compares env cond truth) : g.Compares env' (cond.rename r) truth := by
  obtain ⟨a, b, ha, hb, compared⟩ := h
  have checked : ∀ o ∈ [cond.lhs, cond.rhs], f.checkName o = .ok () := by
    intro o ho
    refine checkName_eq_ok.mpr ?_
    rintro n rfl
    exact known _ ho n rfl
  refine ⟨a, b, ?_, ?_, ?_⟩
  · rw [← ha]
    exact Env.operand_rename (same _ (by simp))
  · rw [← hb]
    exact Env.operand_rename (same _ (by simp))
  · have types : g.comparisonType? (cond.lhs.rename r) (cond.rhs.rename r) =
        f.comparisonType? cond.lhs cond.rhs :=
      renames.comparisonType? (checked _ (by simp)) (checked _ (by simp))
    simpa only [Condition.rename, types] using compared

/-- A right-hand side gives the same value under other names. -/
theorem evaluates {rhs : Rhs} (type : g.typeOf dest = f.typeOf dest)
    (known : ∀ n ∈ rhs.usedNames, n < f.nameCount)
    (same : ∀ n ∈ rhs.usedNames, env' (r n) = env n)
    (h : f.Evaluates config env dest v rhs) : g.Evaluates config env' dest v (rhs.rename r) := by
  have run : g.runType config dest = f.runType config dest := by
    simp only [Function.runType, type]
  have read : ∀ o ∈ rhs.operands, ∀ n, o.name? = some n → n ∈ rhs.usedNames := by
    intro o ho n hn
    have listed : n ∈ rhs.operands.filterMap Operand.name? := List.mem_filterMap.mpr ⟨o, ho, hn⟩
    cases rhs with
    | assert subject predicate => exact List.mem_cons_of_mem _ listed
    | copy | unary | binary | compare | select | addressOf | load | call => exact listed
  have operand : ∀ o ∈ rhs.operands, env'.operand (o.rename r) = env.operand o := fun o ho =>
    Env.operand_rename fun n hn => same n (read o ho n hn)
  cases rhs with
  | copy x => simpa only [Evaluates, Rhs.rename, operand x (by simp [Rhs.operands])] using h
  | unary op x =>
      have types : g.operandType (f.typeOf dest) (x.rename r) = f.operandType (f.typeOf dest) x :=
        renames.operandType fun n hn => known n (read x (by simp [Rhs.operands]) n hn)
      simpa only [Evaluates, Rhs.rename, operand x (by simp [Rhs.operands]), type, types,
        run] using h
  | binary op x y =>
      simpa only [Evaluates, Rhs.rename, operand x (by simp [Rhs.operands]),
        operand y (by simp [Rhs.operands]), run] using h
  | compare op x y =>
      obtain ⟨truth, compared, value⟩ := h
      refine ⟨truth, ?_, by rw [run]; exact value⟩
      exact @compares _ _ _ _ _ renames ⟨op, x, y⟩ truth (fun o ho n hn => known n (read o ho n hn))
        (fun o ho n hn => same n (read o ho n hn)) compared
  | select cond x y =>
      obtain ⟨truth, compared, chosen⟩ := h
      have sides : ∀ o ∈ [cond.lhs, cond.rhs], o ∈ (Rhs.select cond x y).operands := by
        simp [Rhs.operands]
      refine ⟨truth, renames.compares (fun o ho n hn => known n (read o (sides o ho) n hn))
        (fun o ho n hn => same n (read o (sides o ho) n hn)) compared, ?_⟩
      cases truth with
      | true => exact (operand x (by simp [Rhs.operands])).trans chosen
      | false => exact (operand y (by simp [Rhs.operands])).trans chosen
  | assert subject predicate => exact (same subject (List.mem_cons_self ..)).trans h
  | addressOf => exact ⟨h.1, by rw [run]; exact h.2⟩
  | load address =>
      simpa only [Evaluates, Rhs.rename, operand address (by simp [Rhs.operands]), run] using h
  | call args nonnull =>
      obtain ⟨set, admits, ne⟩ := h
      refine ⟨?_, by rw [run]; exact admits, by rw [run]; exact ne⟩
      intro x hx
      obtain ⟨o, ho, rfl⟩ := List.mem_map.mp hx
      rw [operand o ho]
      exact set o ho

/-- A statement sets the same name to the same value under other names. -/
theorem runs {stmt : Stmt} {after : Env}
    (type : ∀ n, stmt.dest? = some n → g.typeOf n = f.typeOf n)
    (known : ∀ n ∈ stmt.usedNames, n < f.nameCount)
    (same : ∀ n ∈ stmt.usedNames, env' (r n) = env n) (h : f.Runs config env stmt after) :
    ∃ after', g.Runs config env' (stmt.rename r) after' ∧
      ∀ count, env'.AgreesBelow count env → after'.AgreesBelow count after := by
  cases h with
  | @assign dest rhs value evaluates =>
      exact ⟨_, .assign (renames.evaluates (type dest rfl) known same evaluates),
        fun count agree => agree.set dest value⟩
  | @store address value a v ha hne hv =>
      have operand : ∀ o ∈ [address, value], env'.operand (o.rename r) = env.operand o :=
        fun o ho => Env.operand_rename fun n hn => same n (List.mem_filterMap.mpr ⟨o, ho, hn⟩)
      have read := (operand address (by simp)).trans ha
      have written := (operand value (by simp)).trans hv
      exact ⟨_, .store read hne written, fun count agree => agree⟩
  | nop => exact ⟨_, .nop, fun count agree => agree⟩

/-- A terminator chooses alike under other names, with other blocks in place of its targets. -/
theorem selects {t : Terminator} {target : BlockId} (forth : BlockId → BlockId)
    (known : ∀ n ∈ t.usedNames, n < f.nameCount) (same : ∀ n ∈ t.usedNames, env' (r n) = env n)
    (h : f.Selects env target t) :
    g.Selects env' (forth target) ((t.retarget forth).rename r) := by
  have read : ∀ o ∈ t.operands, ∀ n, o.name? = some n → n ∈ t.usedNames := fun o ho n hn =>
    List.mem_filterMap.mpr ⟨o, ho, hn⟩
  cases t with
  | jump next => exact congrArg forth h
  | branch cond onTrue onFalse =>
      obtain ⟨truth, compared, rfl⟩ := h
      refine ⟨truth, renames.compares (fun o ho n hn => known n (read o ho n hn))
        (fun o ho n hn => same n (read o ho n hn)) compared, ?_⟩
      cases truth <;> rfl
  | switch index cases default =>
      obtain ⟨v, hv, rfl⟩ := h
      refine ⟨v, ?_, ?_⟩
      · rw [← hv]
        exact Env.operand_rename fun n hn => same n (read index (List.mem_singleton.mpr rfl) n hn)
      · have moved : (fun case : SwitchCase => case.matches v) ∘
            (fun case : SwitchCase => { case with target := forth case.target }) =
              (·.matches v) := rfl
        rw [List.find?_map, moved]
        cases cases.find? (·.matches v) <;> rfl
  | «return» | unreachable => exact h

end Renames

end Function

/-- A merge takes the same values from other names of its predecessors and operands. -/
theorem Block.mergeFrom_redirect {t t' : Block} {back : BlockId → BlockId}
    {rename : BlockId → NameId → NameId} {p : BlockId} {n : NameId}
    (phis : t'.phis = t.phis.map fun phi => (phi.redirect back).rename rename)
    (inj : ∀ phi ∈ t.phis, ∀ o ∈ phi.operands, back o.predecessor = back p → o.predecessor = p)
    (same : ∀ phi ∈ t.phis, ∀ o ∈ phi.operands, o.predecessor = p → ∀ n, o.value = .name n →
      env' (rename (back p) n) = env n)
    (kept : env' n = env n) : t'.mergeFrom (back p) env' n = t.mergeFrom p env n := by
  have dests : (fun phi : Phi => phi.dest == n) ∘
      (fun phi : Phi => (phi.redirect back).rename rename) = fun phi => phi.dest == n := rfl
  unfold mergeFrom
  rw [phis, List.find?_map, dests]
  cases found : t.phis.find? (·.dest == n) with
  | none => exact kept
  | some phi =>
      have hphi := List.mem_of_find?_eq_some found
      have from_ : ∀ o ∈ phi.operands, (back o.predecessor == back p) = (o.predecessor == p) := by
        intro o ho
        rw [Bool.eq_iff_iff, beq_iff_eq, beq_iff_eq]
        exact ⟨inj phi hphi o ho, congrArg back⟩
      have operand : ((phi.redirect back).rename rename).operandFrom? (back p) =
          (phi.operands.find? (·.predecessor == p)).map fun o =>
            o.value.rename (rename (back o.predecessor)) := by
        simp only [Phi.operandFrom?, Phi.rename, Phi.redirect, List.find?_map, Option.map_map]
        exact congrArg (Option.map _) (List.find?_congr from_)
      rw [Option.map_some]
      dsimp only
      rw [operand, Phi.operandFrom?]
      cases comes : phi.operands.find? (·.predecessor == p) with
      | none => rfl
      | some o =>
          have ho := List.mem_of_find?_eq_some comes
          have source : o.predecessor = p := by
            have here := List.find?_some comes
            exact eq_of_beq here
          refine Env.operand_rename fun m hm => ?_
          rw [source]
          exact same phi hphi o ho source m (Operand.name?_eq_some.mp hm)

end RangeFlow
