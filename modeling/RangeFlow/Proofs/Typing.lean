import RangeFlow.Proofs.Places

/-! # Types of operands

Validation compares the types of operands with the types their places ask for. `Function.Typed` is
the property it checks; the lemmas here say at which places a valid function has it.
-/

namespace RangeFlow

theorem Operand.name?_eq_some {o : Operand} {n : NameId} : o.name? = some n ↔ o = .name n := by
  cases o <;> simp [name?]

namespace Function

/-- The operand is a name of the type, or a literal that is a value of it. -/
def Typed (f : Function) (ty : ScalarType) : Operand → Prop
  | .name n => n < f.nameCount ∧ f.typeOf n = ty
  | .const c => ty.isTracked → ty.fits c

theorem checkName_eq_ok {f : Function} {o : Operand} :
    f.checkName o = .ok () ↔ ∀ n, o = .name n → n < f.nameCount := by
  cases o with
  | const c => simp [checkName]
  | name n =>
      by_cases h : n < f.nameCount <;> simp [checkName, h]

/-- The check of an operand passes exactly on operands of the type. -/
theorem checkOperand_eq_ok {f : Function} {ty : ScalarType} {o : Operand} :
    f.checkOperand ty o = .ok () ↔ f.Typed ty o := by
  cases o with
  | name n =>
      by_cases h : n < f.nameCount
      · by_cases e : f.typeOf n = ty <;>
          simp [checkOperand, checkName, Typed, h, e, bind, Except.bind]
      · simp [checkOperand, checkName, Typed, h, bind, Except.bind]
  | const c =>
      cases ht : ty.isTracked <;> cases hc : ty.fits c <;>
        simp [checkOperand, checkName, Typed, ht, hc, bind, Except.bind]

theorem Typed.lt {f : Function} {ty : ScalarType} {n : NameId} (h : f.Typed ty (.name n)) :
    n < f.nameCount := h.1

/-- Names that exist have the type that the list of names gives. -/
theorem typeOf?_eq_some {f : Function} {n : NameId} (h : n < f.nameCount) :
    f.typeOf? n = some (f.typeOf n) := by
  simp [typeOf, typeOf?, List.getElem?_eq_getElem h]

theorem checkedType_eq_ok {f : Function} {n : NameId} {ty : ScalarType}
    (h : f.checkedType n = .ok ty) : n < f.nameCount ∧ f.typeOf n = ty := by
  unfold checkedType at h
  split at h
  · next t ht =>
      cases h
      have exists_ : n < f.nameCount := by
        unfold typeOf? at ht
        obtain ⟨info, hinfo, -⟩ := Option.map_eq_some_iff.mp ht
        exact (List.getElem?_eq_some_iff.mp hinfo).1
      exact ⟨exists_, by simp [typeOf, ht]⟩
  · cases h

/-- The sides of a comparison that passes its check are names that exist. -/
theorem checkComparison_names {f : Function} {lhs rhs : Operand}
    (h : f.checkComparison lhs rhs = .ok ()) {n : NameId} (hn : lhs = .name n ∨ rhs = .name n) :
    n < f.nameCount := by
  obtain ⟨_, hl, h⟩ := bind_eq_ok.mp h
  obtain ⟨_, hr, -⟩ := bind_eq_ok.mp h
  rcases hn with hn | hn
  · exact checkName_eq_ok.mp hl n hn
  · exact checkName_eq_ok.mp hr n hn

/-- The sides of a comparison that passes its check have one type. -/
theorem checkComparison_typed {f : Function} {lhs rhs : Operand} {ty : ScalarType}
    (h : f.checkComparison lhs rhs = .ok ()) (hty : f.comparisonType? lhs rhs = some ty) :
    f.Typed ty lhs ∧ f.Typed ty rhs := by
  obtain ⟨_, -, h⟩ := bind_eq_ok.mp h
  obtain ⟨_, -, h⟩ := bind_eq_ok.mp h
  rw [hty] at h
  obtain ⟨_, hl, hr⟩ := bind_eq_ok.mp h
  exact ⟨checkOperand_eq_ok.mp hl, checkOperand_eq_ok.mp hr⟩

/-- A name on the left gives a comparison its type. -/
theorem comparisonType?_name_left {f : Function} {n : NameId} {rhs : Operand}
    (h : n < f.nameCount) : f.comparisonType? (.name n) rhs = some (f.typeOf n) := by
  simpa [comparisonType?, Operand.name?] using typeOf?_eq_some h

/-- A name on the right gives a comparison with a literal its type. -/
theorem comparisonType?_name_right {f : Function} {n : NameId} {c : Int}
    (h : n < f.nameCount) : f.comparisonType? (.const c) (.name n) = some (f.typeOf n) := by
  simpa [comparisonType?, Operand.name?] using typeOf?_eq_some h

/-- The check of an assignment is the check of its right-hand side at the type of the name. -/
theorem Valid.checkRhs {f : Function} (hf : f.Valid) {block : BlockId} {index : Nat}
    {dest : NameId} {rhs : Rhs} (h : f.stmtAt? block index = some (.assign dest rhs)) :
    f.checkRhs (f.typeOf dest) rhs = .ok () := by
  obtain ⟨b, hb, hi⟩ := stmtAt?_eq_some.mp h
  have check := hf.stmts block b hb _ (List.mem_of_getElem? hi)
  obtain ⟨ty, hty, hrhs⟩ := bind_eq_ok.mp check
  rw [(checkedType_eq_ok hty).2]
  exact hrhs

/-- The names that a checked right-hand side reads exist. -/
theorem checkRhs_usedNames_lt {f : Function} {ty : ScalarType} {rhs : Rhs}
    (h : f.checkRhs ty rhs = .ok ()) {n : NameId} (hn : n ∈ rhs.usedNames) : n < f.nameCount := by
  obtain ⟨_, hops, h⟩ := bind_eq_ok.mp h
  have operand : n ∈ rhs.operands.filterMap Operand.name? → n < f.nameCount := by
    intro hm
    obtain ⟨o, ho, hname⟩ := List.mem_filterMap.mp hm
    refine checkName_eq_ok.mp (forM_eq_ok.mp hops o ho) n ?_
    cases o with
    | name m => exact congrArg _ (Option.some.inj hname)
    | const c => cases hname
  cases rhs with
  | assert subject predicate =>
      rcases List.mem_cons.mp hn with rfl | hn
      · exact (checkOperand_eq_ok.mp h).lt
      · exact operand hn
  | copy | unary | binary | compare | select | addressOf | load | call => exact operand hn

/-- The names a statement of a valid function reads exist. -/
theorem Valid.stmt_usedNames_lt {f : Function} (hf : f.Valid) {block : BlockId} {index : Nat}
    {stmt : Stmt} (h : f.stmtAt? block index = some stmt) {n : NameId}
    (hn : n ∈ stmt.usedNames) : n < f.nameCount := by
  cases stmt with
  | assign dest rhs => exact checkRhs_usedNames_lt (hf.checkRhs h) hn
  | store address value =>
      obtain ⟨b, hb, hi⟩ := stmtAt?_eq_some.mp h
      have check := hf.stmts block b hb _ (List.mem_of_getElem? hi)
      obtain ⟨_, haddr, hval⟩ := bind_eq_ok.mp check
      obtain ⟨o, ho, hname⟩ := List.mem_filterMap.mp hn
      have named : o = .name n := by
        cases o with
        | name m => exact congrArg _ (Option.some.inj hname)
        | const c => cases hname
      rcases List.mem_cons.mp ho with rfl | ho
      · exact checkName_eq_ok.mp haddr n named
      · rcases List.mem_singleton.mp ho with rfl
        exact checkName_eq_ok.mp hval n named
  | nop => cases hn

/-- The names a terminator of a valid function reads exist. -/
theorem Valid.terminator_usedNames_lt {f : Function} (hf : f.Valid) {block : BlockId} {b : Block}
    (hb : f.block? block = some b) {n : NameId} (hn : n ∈ b.terminator.usedNames) :
    n < f.nameCount := by
  have check := hf.terminators block b hb
  obtain ⟨o, ho, hname⟩ := List.mem_filterMap.mp hn
  have named : o = .name n := by
    cases o with
    | name m => exact congrArg _ (Option.some.inj hname)
    | const c => cases hname
  subst named
  cases ht : b.terminator with
  | jump target => simp [ht, Terminator.operands] at ho
  | unreachable => simp [ht, Terminator.operands] at ho
  | branch cond onTrue onFalse =>
      rw [ht] at check
      refine checkComparison_names check ?_
      simpa [ht, Terminator.operands, eq_comm] using ho
  | switch index cases default =>
      rw [ht] at check
      obtain ⟨_, hindex, -⟩ := bind_eq_ok.mp check
      refine checkName_eq_ok.mp hindex n ?_
      simpa [ht, Terminator.operands, eq_comm] using ho
  | «return» value =>
      rw [ht] at check
      cases value with
      | none => simp [ht, Terminator.operands] at ho
      | some o =>
          refine checkName_eq_ok.mp check n ?_
          simpa [ht, Terminator.operands, eq_comm] using ho

/-- The operands of a merge of a valid function have its type. -/
theorem Valid.phi_typed {f : Function} (hf : f.Valid) {block : BlockId} {index : Nat} {phi : Phi}
    (h : f.phiAt? block index = some phi) {o : PhiOperand} (ho : o ∈ phi.operands) :
    f.Typed (f.typeOf phi.dest) o.value := by
  obtain ⟨b, hb, hi⟩ := phiAt?_eq_some.mp h
  have check := hf.phis block b hb phi (List.mem_of_getElem? hi)
  obtain ⟨ty, hty, check⟩ := bind_eq_ok.mp check
  rw [(checkedType_eq_ok hty).2]
  obtain ⟨-, check⟩ := guard_bind_eq_ok.mp check
  obtain ⟨_, hops, -⟩ := bind_eq_ok.mp check
  obtain ⟨-, checked⟩ := guard_bind_eq_ok.mp (forM_eq_ok.mp hops o ho)
  obtain ⟨-, checked⟩ := guard_bind_eq_ok.mp checked
  exact checkOperand_eq_ok.mp checked

/-- The ends of the cases of a switch on a name are values of its type. -/
theorem checkCases_fits {ty : ScalarType} {previous : Option Int} {cases : List SwitchCase}
    (h : checkCases (some ty) previous cases = .ok ()) :
    ∀ case ∈ cases, ty.fits case.low = true ∧ ty.fits case.high = true := by
  induction cases generalizing previous with
  | nil => simp
  | cons first rest ih =>
      rw [checkCases] at h
      obtain ⟨-, h⟩ := guard_bind_eq_ok.mp h
      obtain ⟨-, h⟩ := guard_bind_eq_ok.mp h
      have parts : (ty.fits first.low && ty.fits first.high) = true ∧
          checkCases (some ty) (some first.high) rest = .ok () := by
        by_cases fits : (ty.fits first.low && ty.fits first.high) = true
        · simp only [fits, if_true] at h
          exact ⟨fits, h⟩
        · simp only [fits] at h
          cases h
      intro case hcase
      rcases List.mem_cons.mp hcase with rfl | hcase
      · simpa using parts.1
      · exact ih parts.2 case hcase

end Function

end RangeFlow
