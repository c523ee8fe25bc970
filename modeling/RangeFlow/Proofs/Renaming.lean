import RangeFlow.Proofs.Typing

/-! # Renaming what is read

A statement with other names in place of those it reads assigns the same name, and reads the new
names. If the new names have the types of the old ones, all checks pass as before.
-/

namespace RangeFlow

namespace Operand

variable {r r' : NameId → NameId}

theorem rename_rename (o : Operand) : (o.rename r).rename r' = o.rename fun n => r' (r n) := by
  cases o <;> rfl

theorem rename_eq_self {o : Operand} (h : ∀ n, o.name? = some n → r n = n) : o.rename r = o := by
  cases o with
  | name n => exact congrArg name (h n rfl)
  | const c => rfl

@[simp] theorem name?_rename (o : Operand) : (o.rename r).name? = o.name?.map r := by
  cases o <;> rfl

theorem filterMap_name?_rename (os : List Operand) :
    (os.map (rename r)).filterMap name? = (os.filterMap name?).map r := by
  rw [List.filterMap_map, List.map_filterMap]
  congr 1
  funext o
  exact o.name?_rename

end Operand

namespace Rhs

variable {r r' : NameId → NameId}

@[simp] theorem operands_rename (rhs : Rhs) :
    (rhs.rename r).operands = rhs.operands.map (Operand.rename r) := by
  cases rhs with
  | assert subject predicate => cases predicate <;> rfl
  | copy | unary | binary | compare | select | addressOf | load | call => rfl

theorem usedNames_rename (rhs : Rhs) : (rhs.rename r).usedNames = rhs.usedNames.map r := by
  have names := Operand.filterMap_name?_rename (r := r) rhs.operands
  rw [← operands_rename] at names
  cases rhs with
  | assert subject predicate =>
      change r subject :: _ = r subject :: _
      rw [names]
  | copy | unary | binary | compare | select | addressOf | load | call => exact names

theorem rename_rename (rhs : Rhs) : (rhs.rename r).rename r' = rhs.rename fun n => r' (r n) := by
  cases rhs with
  | assert subject predicate =>
      cases predicate <;> simp [rename, Predicate.rename, Operand.rename_rename]
  | copy | unary | binary | compare | select | addressOf | load | call =>
      simp [rename, Condition.rename, Operand.rename_rename]

theorem rename_eq_self {rhs : Rhs} (h : ∀ n ∈ rhs.usedNames, r n = n) : rhs.rename r = rhs := by
  have operand : ∀ o ∈ rhs.operands, o.rename r = o := by
    intro o ho
    refine Operand.rename_eq_self fun n hn => h n ?_
    have read : n ∈ rhs.operands.filterMap Operand.name? := List.mem_filterMap.mpr ⟨o, ho, hn⟩
    cases rhs with
    | assert subject predicate => exact List.mem_cons_of_mem _ read
    | copy | unary | binary | compare | select | addressOf | load | call => exact read
  cases rhs with
  | assert subject predicate =>
      have name : r subject = subject := h subject (List.mem_cons_self ..)
      cases predicate <;> simp_all [rename, Predicate.rename, operands]
  | call args nonnull =>
      have list : args.map (Operand.rename r) = args :=
        (List.map_congr_left operand).trans (List.map_id _)
      rw [rename, list]
  | copy | unary | binary | compare | select | addressOf | load =>
      simp_all [rename, Condition.rename, operands]

end Rhs

namespace Stmt

variable {r r' : NameId → NameId}

@[simp] theorem dest?_rename (s : Stmt) : (s.rename r).dest? = s.dest? := by
  cases s <;> rfl

@[simp] theorem isAssert_rename (s : Stmt) : (s.rename r).isAssert = s.isAssert := by
  cases s with
  | assign dest rhs => cases rhs <;> rfl
  | store | nop => rfl

theorem usedNames_rename (s : Stmt) : (s.rename r).usedNames = s.usedNames.map r := by
  cases s with
  | assign dest rhs => exact rhs.usedNames_rename
  | store address value => exact Operand.filterMap_name?_rename [address, value]
  | nop => rfl

theorem rename_rename (s : Stmt) : (s.rename r).rename r' = s.rename fun n => r' (r n) := by
  cases s with
  | assign dest rhs => simp [rename, Rhs.rename_rename]
  | store address value => simp [rename, Operand.rename_rename]
  | nop => rfl

theorem rename_eq_self {s : Stmt} (h : ∀ n ∈ s.usedNames, r n = n) : s.rename r = s := by
  cases s with
  | assign dest rhs => exact congrArg (assign dest) (Rhs.rename_eq_self h)
  | store address value =>
      have operand : ∀ o ∈ [address, value], o.rename r = o := fun o ho =>
        Operand.rename_eq_self fun n hn => h n (List.mem_filterMap.mpr ⟨o, ho, hn⟩)
      simp_all [rename]
  | nop => rfl

end Stmt

namespace Phi

/-- The merge with other names in place of those it reads, by the predecessor. -/
def rename (r : BlockId → NameId → NameId) (phi : Phi) : Phi :=
  { phi with operands := phi.operands.map fun o => { o with value := o.value.rename (r o.predecessor) } }

theorem rename_rename {r r' : BlockId → NameId → NameId} (phi : Phi) :
    (phi.rename r).rename r' = phi.rename fun p n => r' p (r p n) := by
  simp [rename, Function.comp_def, Operand.rename_rename]

theorem rename_eq_self {r : BlockId → NameId → NameId} {phi : Phi}
    (h : ∀ o ∈ phi.operands, ∀ n, o.value.name? = some n → r o.predecessor n = n) :
    phi.rename r = phi := by
  have operands : (phi.operands.map fun o =>
      { o with value := o.value.rename (r o.predecessor) }) = phi.operands := by
    refine (List.map_congr_left fun o ho => ?_).trans (List.map_id _)
    rw [Operand.rename_eq_self (h o ho)]
    rfl
  rw [rename, operands]

end Phi

namespace Terminator

variable {r r' : NameId → NameId}

theorem operands_rename (t : Terminator) :
    (t.rename r).operands = t.operands.map (Operand.rename r) := by
  cases t with
  | «return» value => cases value <;> rfl
  | jump | branch | switch | unreachable => rfl

theorem usedNames_rename (t : Terminator) : (t.rename r).usedNames = t.usedNames.map r := by
  rw [usedNames, operands_rename, Operand.filterMap_name?_rename]
  rfl

theorem rename_rename (t : Terminator) : (t.rename r).rename r' = t.rename fun n => r' (r n) := by
  cases t with
  | «return» value => cases value <;> simp [rename, Operand.rename_rename]
  | jump | branch | switch | unreachable => simp [rename, Condition.rename, Operand.rename_rename]

theorem rename_eq_self {t : Terminator} (h : ∀ n ∈ t.usedNames, r n = n) : t.rename r = t := by
  have operand : ∀ o ∈ t.operands, o.rename r = o := fun o ho =>
    Operand.rename_eq_self fun n hn => h n (List.mem_filterMap.mpr ⟨o, ho, hn⟩)
  cases t with
  | «return» value => cases value <;> simp_all [rename, operands]
  | jump | branch | switch | unreachable => simp_all [rename, Condition.rename, operands]

end Terminator

namespace Function

/-- Every name of the one function has a name of the same type in the other in its place. -/
structure Renames (f g : Function) (r : NameId → NameId) : Prop where
  lt : ∀ n, n < f.nameCount → r n < g.nameCount
  type : ∀ n, n < f.nameCount → g.typeOf (r n) = f.typeOf n

namespace Renames

variable {f g : Function} {r : NameId → NameId} {ty : ScalarType} {o lhs rhs : Operand}

theorem typed (h : Renames f g r) (typed : f.Typed ty o) : g.Typed ty (o.rename r) := by
  cases o with
  | const c => exact typed
  | name n => exact ⟨h.lt n typed.1, (h.type n typed.1).trans typed.2⟩

theorem checkOperand (h : Renames f g r) (check : f.checkOperand ty o = .ok ()) :
    g.checkOperand ty (o.rename r) = .ok () :=
  checkOperand_eq_ok.mpr (h.typed (checkOperand_eq_ok.mp check))

theorem checkName (h : Renames f g r) (check : f.checkName o = .ok ()) :
    g.checkName (o.rename r) = .ok () := by
  rw [checkName_eq_ok] at check ⊢
  intro n hn
  cases o with
  | const c => cases hn
  | name m =>
      cases hn
      exact h.lt m (check m rfl)

theorem comparisonType? (h : Renames f g r) (left : f.checkName lhs = .ok ())
    (right : f.checkName rhs = .ok ()) :
    g.comparisonType? (lhs.rename r) (rhs.rename r) = f.comparisonType? lhs rhs := by
  have known : ∀ n, n < f.nameCount → g.typeOf? (r n) = f.typeOf? n := by
    intro n hn
    rw [typeOf?_eq_some hn, typeOf?_eq_some (h.lt n hn), h.type n hn]
  rw [checkName_eq_ok] at left right
  cases lhs with
  | name n => exact known n (left n rfl)
  | const c =>
      cases rhs with
      | name n => exact known n (right n rfl)
      | const d => rfl

theorem checkComparison (h : Renames f g r) (check : f.checkComparison lhs rhs = .ok ()) :
    g.checkComparison (lhs.rename r) (rhs.rename r) = .ok () := by
  obtain ⟨_, left, check⟩ := bind_eq_ok.mp check
  obtain ⟨_, right, check⟩ := bind_eq_ok.mp check
  refine bind_eq_ok.mpr ⟨(), h.checkName left, bind_eq_ok.mpr ⟨(), h.checkName right, ?_⟩⟩
  rw [h.comparisonType? left right]
  cases type : f.comparisonType? lhs rhs with
  | none => rfl
  | some ty =>
      rw [type] at check
      obtain ⟨_, left, right⟩ := bind_eq_ok.mp check
      exact bind_eq_ok.mpr ⟨(), h.checkOperand left, h.checkOperand right⟩

theorem checkRhs (h : Renames f g r) {rhs : Rhs} (check : f.checkRhs ty rhs = .ok ()) :
    g.checkRhs ty (rhs.rename r) = .ok () := by
  obtain ⟨_, names, check⟩ := bind_eq_ok.mp check
  refine bind_eq_ok.mpr ⟨(), forM_eq_ok.mpr fun o ho => ?_, ?_⟩
  · rw [Rhs.operands_rename] at ho
    obtain ⟨old, hold, rfl⟩ := List.mem_map.mp ho
    exact h.checkName (forM_eq_ok.mp names old hold)
  cases rhs with
  | copy x => exact h.checkOperand check
  | binary op a b =>
      obtain ⟨_, first, second⟩ := bind_eq_ok.mp check
      refine bind_eq_ok.mpr ⟨(), h.checkOperand first, ?_⟩
      split at second
      · next asymmetric => rw [if_pos asymmetric]
      · next symmetric =>
          rw [if_neg symmetric]
          exact h.checkOperand second
  | compare op a b => exact h.checkComparison check
  | select cond thenValue elseValue =>
      obtain ⟨_, compared, check⟩ := bind_eq_ok.mp check
      obtain ⟨_, first, second⟩ := bind_eq_ok.mp check
      exact bind_eq_ok.mpr ⟨(), h.checkComparison compared,
        bind_eq_ok.mpr ⟨(), h.checkOperand first, h.checkOperand second⟩⟩
  | assert subject predicate => exact h.checkOperand (o := .name subject) check
  | unary | addressOf | load | call => rfl

theorem checkedType (h : Renames f g r) {n : NameId} (check : f.checkedType n = .ok ty) :
    g.checkedType (r n) = .ok ty := by
  obtain ⟨exists_, rfl⟩ := checkedType_eq_ok check
  simp [Function.checkedType, typeOf?_eq_some (h.lt n exists_), h.type n exists_]

/-- A statement passes its check with other names, if the assigned name keeps its type. -/
theorem checkStmt (h : Renames f g r) (same : Renames f g fun n => n) {s : Stmt}
    (check : f.checkStmt s = .ok ()) : g.checkStmt (s.rename r) = .ok () := by
  cases s with
  | assign dest rhs =>
      obtain ⟨ty, hty, check⟩ := bind_eq_ok.mp check
      exact bind_eq_ok.mpr ⟨ty, same.checkedType hty, h.checkRhs check⟩
  | store address value =>
      obtain ⟨_, first, second⟩ := bind_eq_ok.mp check
      exact bind_eq_ok.mpr ⟨(), h.checkName first, h.checkName second⟩
  | nop => rfl

theorem checkTerminator (h : Renames f g r) {t : Terminator}
    (check : f.checkTerminator t = .ok ()) : g.checkTerminator (t.rename r) = .ok () := by
  cases t with
  | jump | unreachable => rfl
  | branch cond onTrue onFalse => exact h.checkComparison check
  | switch index cases default =>
      obtain ⟨_, name, check⟩ := bind_eq_ok.mp check
      refine bind_eq_ok.mpr ⟨(), h.checkName name, ?_⟩
      cases index with
      | const c => exact check
      | name n =>
          change checkCases (some (g.typeOf (r n))) none cases = .ok ()
          rw [h.type n (checkName_eq_ok.mp name n rfl)]
          exact check
  | «return» value =>
      cases value with
      | none => rfl
      | some o => exact h.checkName check

end Renames

theorem checkTerminator_retarget {f : Function} {t : Terminator} {p : BlockId → BlockId}
    (check : f.checkTerminator t = .ok ()) : f.checkTerminator (t.retarget p) = .ok () := by
  have cases_ : ∀ (ty : Option ScalarType) (cases : List SwitchCase) (previous : Option Int),
      checkCases ty previous (cases.map fun case => { case with target := p case.target }) =
        checkCases ty previous cases := by
    intro ty cases
    induction cases with
    | nil => exact fun _ => rfl
    | cons case rest ih =>
        intro previous
        simp only [List.map_cons, checkCases, ih]
  cases t with
  | switch index cases default =>
      obtain ⟨_, name, check⟩ := bind_eq_ok.mp check
      exact bind_eq_ok.mpr ⟨(), name, (cases_ _ _ _).trans check⟩
  | jump | branch | «return» | unreachable => exact check

end Function

end RangeFlow
