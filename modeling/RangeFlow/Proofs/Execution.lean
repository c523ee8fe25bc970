import RangeFlow.Analysis.Config
import RangeFlow.Proofs.Places

/-! # Executions

The meaning of a function: environments, the steps of statements and the ways from block to block.
Operators compute in the types that the configuration gives. A step is missing, so that the
execution stops, where a name that has not been set is read, where an operator has no result and
where the null pointer is read or written through. An exception may leave a block when all its
statements have run. Floating point values are not modelled: what is computed or decided from them
may come out in any way.
-/

namespace RangeFlow

/-- The values of names at one moment. A name without a value has not been set. -/
abbrev Env := NameId → Option Int

namespace Env

/-- No name has been set. -/
def empty : Env := fun _ => none

/-- The value of an operand. -/
def operand (env : Env) : Operand → Option Int
  | .name n => env n
  | .const c => some c

/-- The environment after an assignment. -/
def set (env : Env) (name : NameId) (value : Int) : Env :=
  fun n => if n = name then some value else env n

@[simp] theorem set_self (env : Env) (name : NameId) (value : Int) :
    env.set name value name = some value := by
  simp [set]

theorem set_of_ne (env : Env) {name n : NameId} (value : Int) (h : n ≠ name) :
    env.set name value n = env n := by
  simp [set, h]

theorem operand_congr {env env' : Env} {o : Operand} (h : ∀ n, o = .name n → env' n = env n) :
    env'.operand o = env.operand o := by
  cases o with
  | name n => exact h n rfl
  | const c => rfl

end Env

/-- May the number be a value of the type? Of types that are not followed nothing is asked. -/
def ScalarType.Admits (ty : ScalarType) (value : Int) : Prop :=
  ty.isTracked = true → ty.fits value = true

/-- Does the operator lead from or to floating point values? -/
def UnaryOp.isFloating : UnaryOp → Bool
  | floatToInt => true
  | intToFloat => true
  | _ => false

namespace Function

/-- The type in which a name is computed. -/
def runType (f : Function) (config : Config) (name : NameId) : ScalarType :=
  config.effectiveType (f.typeOf name)

/-- The comparison may come out as the given truth value. -/
def Compares (f : Function) (env : Env) (cond : Condition) (truth : Bool) : Prop :=
  ∃ a b, env.operand cond.lhs = some a ∧ env.operand cond.rhs = some b ∧
    ((f.comparisonType? cond.lhs cond.rhs).all ScalarType.isTracked = true →
      truth = cond.op.eval a b)

/-- The right-hand side may give the value to the name. -/
def Evaluates (f : Function) (config : Config) (env : Env) (dest : NameId) (value : Int) :
    Rhs → Prop
  | .copy x => env.operand x = some value
  | .unary op x =>
      let source := config.effectiveType (f.operandType (f.typeOf dest) x)
      ∃ a, env.operand x = some a ∧
        if source.isTracked && (f.runType config dest).isTracked && !op.isFloating then
          op.fold a source (f.runType config dest) = some value
        else (f.runType config dest).Admits value
  | .binary op x y =>
      ∃ a b, env.operand x = some a ∧ env.operand y = some b ∧
        ((f.runType config dest).isTracked = true →
          op.fold a b (f.runType config dest) = some value)
  | .compare op x y =>
      ∃ truth, f.Compares env ⟨op, x, y⟩ truth ∧
        ((f.runType config dest).isTracked = true →
          value = (f.runType config dest).wrap (if truth then 1 else 0))
  | .select cond x y =>
      ∃ truth, f.Compares env cond truth ∧ env.operand (if truth then x else y) = some value
  | .assert subject _ => env subject = some value
  | .addressOf => value ≠ 0 ∧ (f.runType config dest).Admits value
  | .load address =>
      (∃ a, env.operand address = some a ∧ a ≠ 0) ∧ (f.runType config dest).Admits value
  | .call args nonnull =>
      (∀ x ∈ args, (env.operand x).isSome) ∧ (f.runType config dest).Admits value ∧
        (nonnull = true → (f.runType config dest).isPointer = true → value ≠ 0)

/-- The statement may lead from one environment to the other. -/
inductive Runs (f : Function) (config : Config) (env : Env) : Stmt → Env → Prop where
  | assign {dest : NameId} {rhs : Rhs} {value : Int} (h : f.Evaluates config env dest value rhs) :
      Runs f config env (.assign dest rhs) (env.set dest value)
  | store {address value : Operand} {a v : Int} (ha : env.operand address = some a) (hne : a ≠ 0)
      (hv : env.operand value = some v) : Runs f config env (.store address value) env
  | nop : Runs f config env .nop env

/-- The terminator may choose the target. -/
def Selects (f : Function) (env : Env) (target : BlockId) : Terminator → Prop
  | .jump next => target = next
  | .branch cond onTrue onFalse =>
      ∃ truth, f.Compares env cond truth ∧ target = if truth then onTrue else onFalse
  | .switch index cases default =>
      ∃ v, env.operand index = some v ∧
        target = ((cases.find? (·.matches v)).map SwitchCase.target).getD default
  | .return _ => False
  | .unreachable => False

end Function

/-- A moment of an execution: the block, how many of its statements have run, and the values. -/
structure ExecState where
  block : BlockId
  index : Nat
  env : Env

namespace Function

/-- Control may go from the end of the block to the head of the target. -/
def Leaves (f : Function) (s : ExecState) (target : BlockId) : Prop :=
  ∃ b, f.block? s.block = some b ∧ s.index = b.stmts.length ∧
    (f.Selects s.env target b.terminator ∨ target ∈ b.abnormal)

end Function

/-- The environment at the head of the block when control comes from a predecessor: all merges read
    their operands at the same time. -/
def Block.mergeFrom (b : Block) (predecessor : BlockId) (env : Env) : Env := fun n =>
  match b.phis.find? (·.dest == n) with
  | some phi => (phi.operandFrom? predecessor).bind env.operand
  | none => env n

namespace Function

/-- One step of an execution. -/
inductive Step (f : Function) (config : Config) : ExecState → ExecState → Prop where
  | stmt {block : BlockId} {index : Nat} {env env' : Env} {stmt : Stmt}
      (h : f.stmtAt? block index = some stmt) (run : f.Runs config env stmt env') :
      Step f config ⟨block, index, env⟩ ⟨block, index + 1, env'⟩
  | edge {s : ExecState} {target : BlockId} {t : Block} (leave : f.Leaves s target)
      (ht : f.block? target = some t) :
      Step f config s ⟨target, 0, t.mergeFrom s.block s.env⟩

/-- Parameters have any value of their type, and no other name has one. -/
def Initial (f : Function) (config : Config) (env : Env) : Prop :=
  ∀ n, match (f.names[n]?).map NameInfo.origin with
    | some (.param _ nonnull) => ∃ v, env n = some v ∧ (f.runType config n).Admits v ∧
        (nonnull = true → (f.runType config n).isPointer = true → v ≠ 0)
    | _ => env n = none

/-- Some execution comes to the state. -/
inductive Reaches (f : Function) (config : Config) : ExecState → Prop where
  | start {env : Env} (h : f.Initial config env) : Reaches f config ⟨f.entry, 0, env⟩
  | step {s s' : ExecState} (h : Reaches f config s) (step : f.Step config s s') :
      Reaches f config s'

/-- The value of a right-hand side depends only on the names it reads. -/
theorem Evaluates.congr {f : Function} {config : Config} {env env' : Env} {dest : NameId}
    {value : Int} {rhs : Rhs} (same : ∀ n ∈ rhs.usedNames, env' n = env n)
    (h : f.Evaluates config env dest value rhs) : f.Evaluates config env' dest value rhs := by
  have operand : ∀ o ∈ rhs.operands, env'.operand o = env.operand o := by
    intro o ho
    refine Env.operand_congr fun n hn => same n ?_
    have read : n ∈ rhs.operands.filterMap Operand.name? :=
      List.mem_filterMap.mpr ⟨o, ho, by rw [hn]; rfl⟩
    cases rhs with
    | assert subject predicate => exact List.mem_cons_of_mem _ read
    | copy | unary | binary | compare | select | addressOf | load | call => exact read
  cases rhs with
  | copy x =>
      simpa only [Evaluates, operand x (by simp [Rhs.operands])] using h
  | unary op x =>
      simpa only [Evaluates, operand x (by simp [Rhs.operands])] using h
  | binary op x y =>
      simpa only [Evaluates, operand x (by simp [Rhs.operands]),
        operand y (by simp [Rhs.operands])] using h
  | compare op x y =>
      simpa only [Evaluates, Compares, operand x (by simp [Rhs.operands]),
        operand y (by simp [Rhs.operands])] using h
  | select cond x y =>
      obtain ⟨truth, compared, chosen⟩ := h
      refine ⟨truth, ?_, ?_⟩
      · simpa only [Compares, operand cond.lhs (by simp [Rhs.operands]),
          operand cond.rhs (by simp [Rhs.operands])] using compared
      · cases truth with
        | true =>
            rw [if_pos rfl] at chosen ⊢
            rw [operand x (by simp [Rhs.operands])]
            exact chosen
        | false =>
            rw [if_neg (by decide)] at chosen ⊢
            rw [operand y (by simp [Rhs.operands])]
            exact chosen
  | assert subject predicate =>
      simpa only [Evaluates, same subject (by simp [Rhs.usedNames])] using h
  | addressOf => exact h
  | load address =>
      simpa only [Evaluates, operand address (by simp [Rhs.operands])] using h
  | call args nonnull =>
      obtain ⟨set, rest⟩ := h
      refine ⟨fun x hx => ?_, rest⟩
      rw [operand x hx]
      exact set x hx

end Function

theorem Block.mergeFrom_of_not_mem {b : Block} {predecessor : BlockId} {env : Env} {n : NameId}
    (h : n ∉ b.phis.map Phi.dest) : b.mergeFrom predecessor env n = env n := by
  have none : b.phis.find? (·.dest == n) = none := by
    rw [List.find?_eq_none]
    intro phi hphi hdest
    exact h (List.mem_map.mpr ⟨phi, hphi, eq_of_beq hdest⟩)
  simp [mergeFrom, none]

end RangeFlow
