import RangeFlow.Analysis.Engine

/-! # What results depend on

The range of a right-hand side, unless it is a comparison, and the decision of a terminator depend
only on the names that are read there. A comparison also depends on the names that are known to be
equal to its sides.
-/

namespace RangeFlow.Query

variable {q q' : Query}

theorem operandRange_congr {o : Operand} (h : ∀ n, o = .name n → q'.rangeOf n = q.rangeOf n) :
    q'.operandRange o = q.operandRange o := by
  cases o with
  | name n => exact h n rfl
  | const c => rfl

theorem operandType_congr (types : q'.typeOf = q.typeOf) (place : ScalarType) (o : Operand) :
    q'.operandType place o = q.operandType place o := by
  cases o with
  | name n => simp only [operandType, types]
  | const c => rfl

theorem decideByRanges_congr {op : CmpOp} {ty : ScalarType} {lhs rhs : Operand}
    (ranges : ∀ n, lhs = .name n ∨ rhs = .name n → q'.rangeOf n = q.rangeOf n) :
    q'.decideByRanges op ty lhs rhs = q.decideByRanges op ty lhs rhs := by
  cases lhs with
  | name a =>
      cases rhs with
      | name b => simp only [decideByRanges, ranges a (.inl rfl), ranges b (.inr rfl)]
      | const c => simp only [decideByRanges, ranges a (.inl rfl)]
  | const c =>
      cases rhs with
      | name b => simp only [decideByRanges, ranges b (.inr rfl)]
      | const d => rfl

/-- Without equal names a condition is decided from the ranges of its sides. -/
theorem decideCondition_congr {op : CmpOp} {lhs rhs : Operand} (types : q'.typeOf = q.typeOf)
    (ranges : ∀ n, lhs = .name n ∨ rhs = .name n → q'.rangeOf n = q.rangeOf n) :
    q'.decideCondition op lhs rhs false = q.decideCondition op lhs rhs false := by
  have typed : ∀ ty, q'.decideTyped op ty lhs rhs false = q.decideTyped op ty lhs rhs false := by
    intro ty
    simp only [decideTyped, decideByRanges_congr ranges, Bool.not_false, Bool.or_true, if_true]
  cases lhs with
  | name a => simp only [decideCondition, types, typed]
  | const c =>
      cases rhs with
      | name b => simp only [decideCondition, types, typed]
      | const d => rfl

theorem limitRange?_congr {o : Operand} (h : ∀ n, o = .name n → q'.rangeOf n = q.rangeOf n) :
    q'.limitRange? o = q.limitRange? o := by
  cases o with
  | name n => simp only [limitRange?, h n rfl]
  | const c => rfl

theorem assertResult_congr {subject : NameId} {predicate : Predicate} {ty : ScalarType}
    (ranges : ∀ n ∈ (Rhs.assert subject predicate).usedNames, q'.rangeOf n = q.rangeOf n) :
    q'.assertResult subject predicate ty = q.assertResult subject predicate ty := by
  have own : q'.rangeOf subject = q.rangeOf subject := ranges subject (by simp [Rhs.usedNames])
  cases predicate with
  | within low high negated => simp only [assertResult, own, implied, assertedEquals]
  | compare op limit =>
      have limitRange : ∀ n, limit = .name n → q'.rangeOf n = q.rangeOf n := by
        rintro n rfl
        exact ranges n (by simp [Rhs.usedNames, Rhs.operands, Operand.name?])
      have equals : q'.assertedEquals subject (.compare op limit) =
          q.assertedEquals subject (.compare op limit) := by
        cases limit with
        | const c => cases op <;> rfl
        | name n => cases op <;> simp only [assertedEquals, limitRange n rfl]
      simp only [assertResult, own, implied, limitRange?_congr limitRange, equals]

/-- The range of a right-hand side other than a comparison depends on the names it reads. -/
theorem rhsResult_congr {ty : ScalarType} {rhs : Rhs} {divisionTraps : Bool}
    (noComparison : ∀ op a b, rhs ≠ .compare op a b) (types : q'.typeOf = q.typeOf)
    (ranges : ∀ n ∈ rhs.usedNames, q'.rangeOf n = q.rangeOf n) :
    q'.rhsResult ty rhs divisionTraps = q.rhsResult ty rhs divisionTraps := by
  have named : ∀ o ∈ rhs.operands, ∀ n, o = .name n → q'.rangeOf n = q.rangeOf n := by
    rintro o ho n rfl
    refine ranges n ?_
    have read : n ∈ rhs.operands.filterMap Operand.name? := List.mem_filterMap.mpr ⟨_, ho, rfl⟩
    cases rhs with
    | assert subject predicate => exact List.mem_cons_of_mem _ read
    | copy | unary | binary | compare | select | addressOf | load | call => exact read
  cases rhs with
  | copy x =>
      cases x with
      | const c => rfl
      | name n =>
          have same := named (.name n) (by simp [Rhs.operands]) n rfl
          simp only [rhsResult, copyResult, same]
  | unary op x =>
      simp only [rhsResult, operandType_congr types,
        operandRange_congr (named x (by simp [Rhs.operands]))]
  | binary op x y =>
      simp only [rhsResult, binaryResult, operandRange_congr (named x (by simp [Rhs.operands])),
        operandRange_congr (named y (by simp [Rhs.operands]))]
  | compare op x y => exact absurd rfl (noComparison op x y)
  | select cond x y =>
      have decided : q'.decideCondition cond.op cond.lhs cond.rhs false =
          q.decideCondition cond.op cond.lhs cond.rhs false := by
        refine decideCondition_congr types ?_
        rintro n (h | h)
        · exact named cond.lhs (by simp [Rhs.operands]) n h
        · exact named cond.rhs (by simp [Rhs.operands]) n h
      simp only [rhsResult, selectResult, decided,
        operandRange_congr (named x (by simp [Rhs.operands])),
        operandRange_congr (named y (by simp [Rhs.operands]))]
  | assert subject predicate => exact assertResult_congr ranges
  | addressOf | load | call => rfl

/-- The decision of a terminator depends on the names it reads. -/
theorem decidedTarget?_congr {t : Terminator} (types : q'.typeOf = q.typeOf)
    (ranges : ∀ n ∈ t.usedNames, q'.rangeOf n = q.rangeOf n) :
    Engine.decidedTarget? q' t = Engine.decidedTarget? q t := by
  have named : ∀ o ∈ t.operands, ∀ n, o = .name n → q'.rangeOf n = q.rangeOf n := by
    rintro o ho n rfl
    exact ranges n (List.mem_filterMap.mpr ⟨_, ho, rfl⟩)
  cases t with
  | branch cond onTrue onFalse =>
      have decided : q'.decideCondition cond.op cond.lhs cond.rhs false =
          q.decideCondition cond.op cond.lhs cond.rhs false := by
        refine decideCondition_congr types ?_
        rintro n (h | h)
        · exact named cond.lhs (by simp [Terminator.operands]) n h
        · exact named cond.rhs (by simp [Terminator.operands]) n h
      simp only [Engine.decidedTarget?, decided]
  | switch index cases default =>
      have intervals : q'.indexIntervals? index = q.indexIntervals? index := by
        cases index with
        | const c => rfl
        | name n =>
            have same := named (.name n) (by simp [Terminator.operands]) n rfl
            simp only [indexIntervals?, types, same]
      simp only [Engine.decidedTarget?, switchTarget?, intervals]
  | jump | «return» | unreachable => rfl

theorem mem_intervalTargets {default x : BlockId} {hi uncovered : Int} {cases : List SwitchCase}
    (h : x ∈ intervalTargets default hi uncovered cases) :
    x = default ∨ x ∈ cases.map SwitchCase.target := by
  induction cases generalizing uncovered with
  | nil =>
      simp only [intervalTargets] at h
      split at h
      · exact .inl (List.mem_singleton.mp h)
      · cases h
  | cons case rest ih =>
      rw [intervalTargets] at h
      rcases List.mem_append.mp h with gap | h
      · split at gap
        · exact .inl (List.mem_singleton.mp gap)
        · cases gap
      · rcases List.mem_cons.mp h with rfl | h
        · exact .inr (List.mem_cons_self ..)
        · exact (ih h).imp id (List.mem_cons_of_mem _)

/-- A decision names a target of the terminator. -/
theorem mem_targets_of_decidedTarget? {t : Terminator} {target : BlockId}
    (h : Engine.decidedTarget? q t = some target) : target ∈ t.targets := by
  cases t with
  | branch cond onTrue onFalse =>
      simp only [Engine.decidedTarget?] at h
      split at h
      · cases h
        simp [Terminator.targets]
      · cases h
        simp [Terminator.targets]
      · cases h
  | switch index cases default =>
      simp only [Engine.decidedTarget?, switchTarget?] at h
      split at h
      · cases h
      · next intervals _ =>
          split at h
          · next single hsingle =>
              cases h
              have member : target ∈ [target] := List.mem_singleton.mpr rfl
              rw [← hsingle, List.mem_eraseDups] at member
              obtain ⟨⟨lo, hi⟩, -, hx⟩ := List.mem_flatMap.mp member
              rcases mem_intervalTargets hx with rfl | hx
              · exact List.mem_append_right _ (List.mem_singleton.mpr rfl)
              · obtain ⟨case, hcase, rfl⟩ := List.mem_map.mp hx
                exact List.mem_append_left _ (List.mem_map_of_mem (List.mem_filter.mp hcase).1)
          · cases h
  | jump | «return» | unreachable => cases h

end RangeFlow.Query
