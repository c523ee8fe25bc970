import RangeFlow.Proofs.AssertedRanges
import RangeFlow.Proofs.Comparisons
import RangeFlow.Proofs.DecidedConditions
import RangeFlow.Proofs.Mentions

/-! # Ranges of right-hand sides hold their values

Some names have values that agree with what is known about them. Where a right-hand side reads only
such names, its range holds the value that it gives. The range mentions only such names, and those
that it lists as equal have this value.
-/

namespace RangeFlow

variable {S known : NameId → Prop} {ty : ScalarType} {v : Int}

/-- The values of the names, zero where a name has none. -/
def Env.total (env : Env) : NameId → Int := fun n => (env n).getD 0

theorem Env.total_eq {env : Env} {n : NameId} (h : env n = some v) : env.total n = v := by
  simp [total, h]

theorem Env.reading_total {env : Env} {o : Operand} (h : env.operand o = some v) :
    o.reading env.total = v := by
  cases o with
  | name n => exact total_eq h
  | const c => exact Option.some.inj h

namespace ValueRange

variable {env : NameId → Int} {op : BinaryOp} {a b vr : ValueRange} {x y : Int}

/-! ### Shifts -/

/-- What a function does on the sides of a complement, or on any other range, its meet over the
    sides does on the whole, also if the complement is not one of the type. -/
theorem holds_of_split {f : ValueRange → ValueRange} {target : ScalarType} (hx : ty.fits x = true)
    (holds : vr.Holds env ty x) (keeps : ∀ part, (f part).Proper target)
    (each : ∀ part : ValueRange, part.Holds env ty x → (f part).Holds env target v) :
    (match splitAnti? ty vr with
      | some (first, some second) => meet target (f first) (f second)
      | some (first, none) => f first
      | none => f vr).Holds env target v := by
  split
  · next first second sides =>
      refine (meet_covers (keeps first) (keeps second)).2 env v ?_
      rcases splitAnti?_holds hx holds sides with holds | ⟨_, same, holds⟩
      · exact .inl (each first holds)
      · cases same
        exact .inr (each second holds)
  · next first sides =>
      rcases splitAnti?_holds hx holds sides with holds | ⟨_, none, -⟩
      · exact each first holds
      · cases none
  · exact each vr holds

theorem toleratesPartial_of_isAsymmetric (h : op.isAsymmetric = true) :
    toleratesPartial op = false := by
  cases op <;> first | rfl | cases h

/-- A shift by an amount of a range without infinities. -/
theorem integerBinary_shift_holds (integral : ty.isIntegral = true)
    (asymmetric : op.isAsymmetric = true) (ha : a.Proper ty) (hx : ty.fits x = true)
    (holdsA : a.Holds env ty x) (defined : b.isUndefined = false)
    (holdsB : b.isVarying = false → b.isSymbolic = false → b.usesInfinity = false →
      b.Holds env ty y) (h : op.applyExact x y ty = some v) :
    (integerBinary op ty a b).Holds env ty (ty.wrap v) := by
  simp only [integerBinary, holdsA.isUndefined_eq, defined, Bool.false_and, Bool.false_eq_true,
    if_false]
  split
  · trivial
  · next full =>
      simp only [toleratesPartial_of_isAsymmetric asymmetric, Bool.not_false, Bool.true_and,
        Bool.or_eq_true, bne_iff_ne, ne_eq, not_or, Bool.not_eq_true, Decidable.not_not] at full
      obtain ⟨⟨⟨⟨-, varyingB⟩, kinds⟩, concreteA⟩, concreteB⟩ := full
      have holdsB := holdsB varyingB concreteB
      have infinite : ∀ left, b.usesInfinity = true →
          (shift left ty a b).Holds env ty (ty.wrap v) := by
        intro left infinite
        simp only [shift, infinite, Bool.not_true, Bool.and_false]
        trivial
      cases op with
      | shl =>
          cases limits : b.usesInfinity with
          | true => exact infinite true limits
          | false => exact shl_holds integral ha kinds concreteA holdsA (holdsB limits) h
      | shr =>
          cases limits : b.usesInfinity with
          | true => exact infinite false limits
          | false => exact shr_holds ha kinds hx holdsA (holdsB limits) h
      | pointerPlus => trivial
      | _ => cases asymmetric

/-- A shift amount is a value of the type that is shifted. -/
theorem fits_of_shiftAmount {n : Nat} (h : BinaryOp.shiftAmount y ty = some n) :
    ty.fits y = true := by
  obtain ⟨⟨nonneg, less⟩, -⟩ := BinaryOp.shiftAmount_eq_some h
  have positive := ty.precision_pos
  have least := ty.minValue_nonpos
  have below : ty.precision - 1 < twoPow (ty.precision - 1) := Nat.lt_two_pow_self
  have greatest : (twoPow (ty.precision - 1) : Int) - 1 ≤ ty.maxValue := by
    unfold ScalarType.maxValue
    split
    · exact le_rfl
    · have grows : twoPow (ty.precision - 1) ≤ twoPow ty.precision :=
        Nat.pow_le_pow_right (by decide) (Nat.sub_le _ 1)
      omega
  exact ScalarType.fits_iff.mpr ⟨by omega, by omega⟩

theorem binaryOfSplitRight_pointerPlus (defined : a.isUndefined = false) :
    binaryOfSplitRight .pointerPlus ty a b = varying := by
  have single : ∀ part, integerBinary .pointerPlus ty a part = varying := by
    intro part
    simp [integerBinary, defined]
  unfold binaryOfSplitRight
  split
  · rw [single, single]
    rfl
  · exact single _
  · exact single b

/-- The right operand of a shift has a type of its own. -/
theorem binaryOfSplitRight_shift_holds (integral : ty.isIntegral = true)
    (asymmetric : op.isAsymmetric = true) {amount : ScalarType} (ha : a.Proper ty)
    (hb : b.Proper amount) (hx : ty.fits x = true) (hy : ty.fits y = true)
    (holdsA : a.Holds env ty x) (holdsB : b.Holds env amount y)
    (h : op.applyExact x y ty = some v) :
    (binaryOfSplitRight op ty a b).Holds env ty (ty.wrap v) := by
  have shifted : ∀ part : ValueRange, part.isUndefined = false →
      (part.isVarying = false → part.isSymbolic = false → part.usesInfinity = false →
        part.Holds env ty y) → (integerBinary op ty a part).Holds env ty (ty.wrap v) :=
    fun part defined holds =>
      integerBinary_shift_holds integral asymmetric ha hx holdsA defined holds h
  obtain ⟨extent, equiv⟩ := b
  cases (hb : extent.Proper amount) with
  | undefined => exact holdsB.elim
  | varying => exact shifted _ rfl nofun
  | @inside lo hi low high =>
      refine shifted _ rfl fun _ concrete finite => ?_
      obtain ⟨concrete, concrete'⟩ := Extent.plain_ends rfl concrete
      obtain ⟨finite, finite'⟩ := isInfinity_of_usesInfinity rfl finite
      have same : ∀ e : Bound, e.isSymbolic = false → e.isInfinity = false →
          e.reading env ty = e.reading env amount := by
        intro e concrete finite
        cases e with
        | const c => rfl
        | negInf | posInf => cases finite
        | symbolic => cases concrete
      rw [Holds, Extent.Holds] at holdsB ⊢
      rw [same lo concrete finite, same hi concrete' finite']
      exact holdsB
  | outside low high order =>
      refine holds_of_split hy holdsB (fun part => integerBinary_proper op fun h => ?_)
        fun part holds => shifted part holds.isUndefined_eq fun _ _ _ => holds
      rw [toleratesPartial_of_isAsymmetric asymmetric] at h
      cases h
  | apartFrom n offset => exact shifted _ rfl fun _ concrete => by cases concrete

/-- A shift, or an address with an offset: the right operand has a type of its own. -/
theorem binary_holds_of_isAsymmetric (integral : ty.isIntegral = true)
    (asymmetric : op.isAsymmetric = true) (ha : a.Proper ty) (hx : ty.fits x = true)
    (holdsA : a.Holds env ty x)
    (right : ty.fits y = true → ∃ amount : ScalarType, b.Proper amount ∧ b.Holds env amount y)
    (h : op.applyExact x y ty = some v) : (binary op ty a b).Holds env ty (ty.wrap v) := by
  rw [binary_of_isIntegral integral]
  refine holds_of_sides ha hx holdsA (fun left _ => binaryOfSplitRight_proper op fun h => ?_)
    fun left hleft holdsLeft => ?_
  · rw [toleratesPartial_of_isAsymmetric asymmetric] at h
    cases h
  · have amountFits : op ≠ .pointerPlus → ty.fits y = true := by
      intro shift
      cases op with
      | shl =>
          obtain ⟨n, amount, -⟩ := Option.bind_eq_some_iff.mp h
          exact fits_of_shiftAmount amount
      | shr =>
          obtain ⟨n, amount, -⟩ := Option.map_eq_some_iff.mp h
          exact fits_of_shiftAmount amount
      | pointerPlus => exact absurd rfl shift
      | _ => cases asymmetric
    by_cases plus : op = .pointerPlus
    · rw [plus, binaryOfSplitRight_pointerPlus holdsLeft.isUndefined_eq]
      trivial
    · obtain ⟨amount, hb, holdsB⟩ := right (amountFits plus)
      exact binaryOfSplitRight_shift_holds integral asymmetric hleft hb hx (amountFits plus)
        holdsLeft holdsB h

end ValueRange

namespace Query

variable {q : Query} {env : Env} {vr : ValueRange} {a : Int} {o lhs rhs : Operand}

/-- The range holds the value. It mentions only names that satisfy the predicate, and those that it
    lists as equal have the value and the type. -/
structure Describes (q : Query) (S : NameId → Prop) (env : Env) (ty : ScalarType) (vr : ValueRange)
    (v : Int) : Prop where
  holds : vr.Holds env.total ty v
  names : vr.NamesIn S
  equal : ∀ m ∈ vr.equiv, q.typeOf m = ty ∧ env.total m = v

theorem Describes.of_nameless (holds : vr.Holds env.total ty v) (nameless : ∀ S, vr.NamesIn S) :
    q.Describes S env ty vr v :=
  ⟨holds, nameless S, fun m hm => ((nameless fun _ => False).2 m hm).elim⟩

theorem describes_varying : q.Describes S env ty .varying v :=
  .of_nameless trivial fun _ => ValueRange.namesIn_varying

theorem describes_singleton (c : Int) : q.Describes S env ty (.singleton c) c :=
  .of_nameless ⟨le_rfl, le_rfl⟩ fun _ => ValueRange.namesIn_singleton c

/-- Some names have values that agree with what is known about them, and with the names that this
    mentions they are so too. -/
structure Knows (q : Query) (known : NameId → Prop) (env : Env) : Prop where
  fits : ∀ n, (q.typeOf n).isTracked = true → (q.typeOf n).fits (env.total n) = true
  describes : ∀ n, known n → (q.typeOf n).isTracked = true →
    q.Describes known env (q.typeOf n) (q.rangeOf n) (env.total n)

namespace Knows

variable (hq : q.Proper) (knows : q.Knows known env)

include hq knows

/-- What is known of these names alone is respected by all values. -/
theorem exists_respects : ∃ q' : Query, q'.typeOf = q.typeOf ∧
    (∀ n, known n → (q.typeOf n).isTracked = true → q'.rangeOf n = q.rangeOf n) ∧ q'.Proper ∧
    q'.Respects env.total := by
  classical
  have cases_ : ∀ (n : NameId) (P : ValueRange → Prop), P .varying →
      (known n → (q.typeOf n).isTracked = true → P (q.rangeOf n)) →
      P (if known n ∧ (q.typeOf n).isTracked = true then q.rangeOf n else .varying) := by
    intro n P unknown h
    split
    · next both => exact h both.1 both.2
    · exact unknown
  refine ⟨⟨fun n => if known n ∧ (q.typeOf n).isTracked = true then q.rangeOf n else .varying,
    q.typeOf⟩, rfl, fun n hn tracked => if_pos ⟨hn, tracked⟩, fun n tracked => ?_,
    knows.fits, fun n tracked => ?_, fun n m hm => ?_⟩
  · exact cases_ n (·.Proper (q.typeOf n)) .varying fun _ => hq n
  · exact cases_ n (·.Holds env.total (q.typeOf n) (env.total n)) trivial
      fun hn tracked => (knows.describes n hn tracked).holds
  · refine cases_ n (fun vr => m ∈ vr.equiv → q.typeOf m = q.typeOf n ∧ env.total m = env.total n)
      nofun (fun hn tracked => (knows.describes n hn tracked).equal m) hm

variable (tracked : ty.isTracked = true)

include tracked

/-- Decisions on operands that are known are right. -/
theorem decided {op : CmpOp} {useEquiv answer : Bool} (left : q.Typed ty lhs)
    (right : q.Typed ty rhs) (names : ∀ n, lhs = .name n ∨ rhs = .name n → known n)
    (decided : (q.decideCondition op lhs rhs useEquiv).value = some answer) :
    answer = op.eval (lhs.reading env.total) (rhs.reading env.total) := by
  obtain ⟨q', types, ranges, proper, respects⟩ := knows.exists_respects hq
  have side : ∀ n, lhs = .name n ∨ rhs = .name n → known n ∧ q.typeOf n = ty := by
    intro n hn
    refine ⟨names n hn, ?_⟩
    rcases hn with rfl | rfl
    · exact left
    · exact right
  have sides : ∀ n, lhs = .name n ∨ rhs = .name n → q'.rangeOf n = q.rangeOf n := by
    intro n hn
    obtain ⟨hn, type⟩ := side n hn
    exact ranges n hn (type.symm ▸ tracked)
  have same : q'.decideCondition op lhs rhs useEquiv = q.decideCondition op lhs rhs useEquiv := by
    cases useEquiv with
    | false => exact decideCondition_congr types sides
    | true =>
        refine decideCondition_equals_congr types sides fun _ => decideByEquivalents_congr ?_
        rintro n ⟨m, hm, equal⟩
        obtain ⟨hm, type⟩ := side m hm
        have describes := knows.describes m hm (type.symm ▸ tracked)
        rcases eq_or_mem_equiv equal with rfl | member
        · exact ranges n hm (type.symm ▸ tracked)
        · refine ranges n (describes.names.2 n member) ?_
          rw [(describes.equal n member).1, type]
          exact tracked
  have typed : ∀ {o}, q.Typed ty o → q'.Typed ty o := by
    intro o h
    cases o with
    | name n => exact (congrFun types n).trans h
    | const c => exact h
  rw [← same] at decided
  exact decideCondition_agrees proper respects (typed left) (typed right) answer decided

omit hq in
/-- The range of an operand that is known describes its value. -/
theorem operandRange_describes (typed : q.Typed ty o) (ha : env.operand o = some a)
    (read : ∀ n, o = .name n → known n ∧ (q.rangeOf n).NamesIn S) :
    q.Describes S env ty (q.operandRange o) a := by
  cases o with
  | const c =>
      cases ha
      exact describes_singleton _
  | name n =>
      cases typed
      obtain ⟨hn, names⟩ := read n rfl
      obtain ⟨holds, -, equal⟩ := knows.describes n hn tracked
      rw [Env.total_eq ha] at holds equal
      exact ⟨holds, names, equal⟩

omit hq in
theorem operandRange_holds (typed : q.Typed ty o) (ha : env.operand o = some a)
    (read : ∀ n, o = .name n → known n) : (q.operandRange o).Holds env.total ty a := by
  cases o with
  | const c =>
      cases ha
      exact ⟨le_rfl, le_rfl⟩
  | name n =>
      cases typed
      rw [← Env.total_eq ha]
      exact (knows.describes n (read n rfl) tracked).holds

omit hq in
theorem operand_fits (typed : q.Typed ty o) (ha : env.operand o = some a) :
    ty.fits a = true := by
  cases o with
  | const c =>
      cases ha
      exact typed
  | name n =>
      cases typed
      rw [← Env.total_eq ha]
      exact knows.fits n tracked

omit hq in
theorem copyResult_describes {x : Operand} (typed : q.Typed ty x) (hv : env.operand x = some v)
    (read : ∀ n, x = .name n → known n ∧ S n ∧ (q.rangeOf n).NamesIn S) :
    q.Describes S env ty (q.copyResult ty x) v := by
  cases x with
  | const c =>
      cases hv
      exact describes_singleton _
  | name n =>
      cases typed
      obtain ⟨hn, own, names⟩ := read n rfl
      obtain ⟨holds, -, equal⟩ := knows.describes n hn tracked
      rw [Env.total_eq hv] at holds equal
      refine ⟨?_, copyResult_namesIn own names, fun m hm => ?_⟩
      · simp only [copyResult, tracked, holds.isUndefined_eq, Bool.not_true, Bool.false_eq_true,
          if_false]
        split
        · have own : (Bound.ofName n).reading env.total (q.typeOf n) = v := by
            simp [Bound.ofName, Bound.reading, Env.total_eq hv]
          exact ⟨own.le, own.ge⟩
        · exact holds
      · simp only [copyResult, tracked, holds.isUndefined_eq, Bool.not_true, Bool.false_eq_true,
          if_false, ValueRange.addEquivalence, IdSet.mem_union, IdSet.mem_insert] at hm
        rcases hm with (rfl | base) | listed
        · exact ⟨rfl, Env.total_eq hv⟩
        · split at base
          · cases base
          · exact equal m base
        · exact equal m listed

omit tracked in
/-- The range of a unary operator describes its result. -/
theorem unary_describes {op : UnaryOp} {x : Operand} {source target : ScalarType}
    (sourceTracked : source.isTracked = true) (targetTracked : target.isTracked = true)
    (same : op = .negate ∨ op = .bitNot ∨ op = .abs → source = target)
    (typed : q.Typed source x) (ha : env.operand x = some a) (h : op.fold a source target = some v)
    (read : ∀ n, x = .name n → known n ∧ (q.rangeOf n).NamesIn S) :
    q.Describes S env target (.unary op source target (q.operandRange x)) v := by
  have operand := knows.operandRange_describes sourceTracked typed ha read
  have fits := knows.operand_fits sourceTracked typed ha
  rcases ValueRange.unary_cases op source target (q.operandRange x) with
    ⟨rfl, whole, nonneg⟩ | nameless
  · obtain rfl := same (.inr (.inr rfl))
    have positive : 0 ≤ a := by
      cases signed : source.signed with
      | true => exact operand.holds.nonneg (nonneg signed) fits
      | false =>
          rw [ScalarType.fits_iff, ScalarType.minValue_of_not_signed signed] at fits
          exact fits.1
    have magnitude : v = a := by
      obtain ⟨exact_, found, rfl⟩ := UnaryOp.fold_eq_some h
      rw [Wide.eq_of_check found, Int.natAbs_of_nonneg positive]
      exact ScalarType.wrap_of_fits fits
    rw [whole, magnitude]
    exact operand
  · refine .of_nameless ?_ nameless
    exact ValueRange.unary_holds_of_tracked ⟨sourceTracked, targetTracked⟩ same
      (operandRange_proper hq sourceTracked typed) fits operand.holds h

/-- The range of a binary operator describes its result. -/
theorem binaryResult_describes {op : BinaryOp} {x y : Operand} {b : Int} (divisionTraps : Bool)
    (integral : ty.isIntegral = true) (tracks : ∀ n, y = .name n → (q.typeOf n).isTracked = true)
    (left : q.Typed ty x) (right : op.isAsymmetric = false → q.Typed ty y)
    (ha : env.operand x = some a) (hb : env.operand y = some b) (h : op.fold a b ty = some v)
    (read : ∀ n, x = .name n ∨ y = .name n → known n) :
    q.Describes S env ty (q.binaryResult op x y ty divisionTraps) v := by
  obtain ⟨exact_, found, rfl⟩ := BinaryOp.fold_eq_some h
  unfold binaryResult
  dsimp only
  split
  · exact describes_varying
  · refine .of_nameless ?_ fun S => ValueRange.binary_namesIn op ty _ _
    have proper := operandRange_proper hq tracked left
    have fits := knows.operand_fits tracked left ha
    have holds := knows.operandRange_holds tracked left ha fun n hn => read n (.inl hn)
    have readRight : ∀ n, y = .name n → known n := fun n hn => read n (.inr hn)
    cases asymmetric : op.isAsymmetric with
    | false =>
        have right := right asymmetric
        have fitsRight := knows.operand_fits tracked right hb
        refine ValueRange.binary_holds_of_parts integral proper
          (operandRange_proper hq tracked right) fits fitsRight holds
          (knows.operandRange_holds tracked right hb readRight) fun _ _ hleft hright h₁ h₂ =>
            ValueRange.integerBinary_holds integral hleft hright fits fitsRight h₁ h₂ found
              fun undefined => ?_
        -- a result outside the type would have been undefined
        rw [BinaryOp.fold, found] at h
        by_contra outside
        have wraps : (ty.wraps || op == .shl) = false := by
          cases op <;> first | exact (Bool.or_false _).trans (ty.wraps_eq_false undefined) |
            cases asymmetric
        simp [outside, wraps] at h
    | true =>
        refine ValueRange.binary_holds_of_isAsymmetric integral asymmetric proper fits holds
          (fun amountFits => ?_) found
        cases y with
        | const c =>
            cases hb
            exact ⟨ty, ValueRange.singleton_proper amountFits, le_rfl, le_rfl⟩
        | name n =>
            have tracked := tracks n rfl
            exact ⟨q.typeOf n, hq n tracked, knows.operandRange_holds tracked rfl hb readRight⟩

omit knows in
/-- The range of a choice describes the chosen value. -/
theorem selectResult_describes {cond : Condition} {x y : Operand} {truth : Bool}
    (right : ∀ answer, (q.decideCondition cond.op cond.lhs cond.rhs false).value = some answer →
      answer = truth) (first : q.Typed ty x) (second : q.Typed ty y)
    (chosen : q.Describes S env ty (q.operandRange (if truth then x else y)) v) :
    q.Describes S env ty (q.selectResult cond x y ty) v := by
  have proper := operandRange_proper hq tracked first
  have proper' := operandRange_proper hq tracked second
  have defined := chosen.holds.isUndefined_eq
  unfold selectResult
  split
  · next decided =>
      cases right true decided
      exact chosen
  · next decided =>
      cases right false decided
      exact chosen
  · cases truth with
    | true =>
        refine ⟨(ValueRange.meet_covers proper proper').2 _ v (.inl chosen.holds),
          ValueRange.meet_namesIn_left defined chosen.names, fun m hm => ?_⟩
        exact chosen.equal m ((ValueRange.mem_meet_equiv hm).1 defined)
    | false =>
        refine ⟨(ValueRange.meet_covers proper proper').2 _ v (.inr chosen.holds),
          ValueRange.meet_namesIn_right defined chosen.names, fun m hm => ?_⟩
        exact chosen.equal m ((ValueRange.mem_meet_equiv hm).2 defined)

omit hq tracked in
/-- The names that an asserted name is found to equal have its type. -/
theorem typeOf_of_mem_assertResult {subject m : NameId} {predicate : Predicate}
    (own : q.typeOf subject = ty) (typed : q.PredicateTyped ty predicate)
    (read : ∀ n ∈ (Rhs.assert subject predicate).usedNames, known n)
    (hm : m ∈ (q.assertResult subject predicate ty).equiv) : q.typeOf m = ty := by
  have listed : ∀ n ∈ (Rhs.assert subject predicate).usedNames, q.typeOf n = ty →
      ty.isTracked = true → m ∈ (q.rangeOf n).equiv → q.typeOf m = ty := by
    intro n hn type tracked hm
    rw [← type] at tracked ⊢
    exact ((knows.describes n (read n hn) tracked).equal m hm).1
  rcases q.assertResult_cases subject predicate ty with unknown | ⟨tracked, refined⟩
  · rw [unknown] at hm
    cases hm
  · rw [refined] at hm
    rcases ValueRange.mem_intersect_equiv hm with already | asserted
    · exact listed subject (by simp [Rhs.usedNames]) own tracked already
    · unfold ValueRange.withEquiv at asserted
      split at asserted
      · rcases mem_assertedEquals asserted with rfl | ⟨limit, rfl, rfl | equal⟩
        · exact own
        · exact typed
        · exact listed limit (by simp [Rhs.usedNames, Rhs.operands, Operand.name?]) typed
            tracked equal
      · rw [implied_equiv] at asserted
        cases asserted

/-- The range of an asserted name describes its value, if the assertion holds. -/
theorem assertResult_describes {subject : NameId} {predicate : Predicate}
    (own : q.typeOf subject = ty) (typed : q.PredicateTyped ty predicate)
    (hv : env subject = some v) (holds : predicate.Holds env v)
    (read : ∀ n ∈ (Rhs.assert subject predicate).usedNames,
      known n ∧ S n ∧ (q.rangeOf n).NamesIn S) :
    q.Describes S env ty (q.assertResult subject predicate ty) v := by
  obtain ⟨q', types, ranges, proper, respects⟩ := knows.exists_respects hq
  have typeOf_read : ∀ n ∈ (Rhs.assert subject predicate).usedNames, q.typeOf n = ty := by
    intro n hn
    rcases List.mem_cons.mp hn with rfl | hn
    · exact own
    · cases predicate with
      | within => cases hn
      | compare op limit =>
          cases limit with
          | const => cases hn
          | name m =>
              cases List.mem_singleton.mp hn
              exact typed
  have same : q'.assertResult subject predicate ty = q.assertResult subject predicate ty :=
    assertResult_congr fun n hn =>
      ranges n (read n hn).1 ((typeOf_read n hn).symm ▸ tracked)
  have typed' : q'.PredicateTyped ty predicate := by
    cases predicate with
    | within => exact typed
    | compare op limit =>
        cases limit with
        | const => exact typed
        | name n => exact (congrFun types n).trans typed
  have satisfied : predicate.Holds (fun n => some (env.total n)) v := by
    cases predicate with
    | within => exact holds
    | compare op limit =>
        obtain ⟨l, value, compared⟩ := holds
        refine ⟨l, ?_, compared⟩
        cases limit with
        | const => exact value
        | name n => exact congrArg some (Env.total_eq value)
  have value := Env.total_eq hv
  rw [← value] at satisfied
  have admits : q'.Admits env.total :=
    ⟨respects.fits, respects.holds, fun n m hm => (respects.equal n m hm).2⟩
  have own' := (congrFun types subject).trans own
  have result : (q'.assertResult subject predicate ty).Holds env.total ty (env.total subject) ∧
      ∀ m ∈ (q'.assertResult subject predicate ty).equiv, env.total m = env.total subject := by
    rcases q'.assertResult_cases subject predicate ty with unknown | ⟨-, refined⟩
    · rw [unknown]
      exact ⟨trivial, nofun⟩
    · rw [refined]
      exact ⟨refined_holds proper admits own' typed' tracked satisfied,
        fun m hm => eq_of_mem_refined admits satisfied hm⟩
  rw [same, value] at result
  exact ⟨result.1, assertResult_namesIn fun n hn => (read n hn).2, fun m hm =>
    ⟨knows.typeOf_of_mem_assertResult own typed (fun n hn => (read n hn).1) hm, result.2 m hm⟩⟩

end Knows

end Query

/-! ### Right-hand sides -/

namespace Function

/-- The operand of a unary operator has a type that the operator takes. -/
def UnaryTypedIn (f : Function) (ty : ScalarType) : Rhs → Prop
  | .unary op x => f.Typed (f.operandType ty x) x ∧
      (op = .negate ∨ op = .bitNot ∨ op = .abs → f.operandType ty x = ty)
  | _ => True

/-- The operands of unary operators, which validation does not look at, have the types of their
    places: opposites, complements and magnitudes stay in their type, and literals belong to the
    type of the result. -/
def UnaryTyped (f : Function) : Prop :=
  ∀ b ∈ f.blocks, ∀ dest rhs, Stmt.assign dest rhs ∈ b.stmts → f.UnaryTypedIn (f.typeOf dest) rhs

/-- All names are integers or truth values. -/
def Integral (f : Function) : Prop := ∀ n < f.nameCount, (f.typeOf n).isIntegral = true

theorem UnaryTyped.stmtAt? {f : Function} (h : f.UnaryTyped) {block : BlockId} {index : Nat}
    {dest : NameId} {rhs : Rhs} (hstmt : f.stmtAt? block index = some (.assign dest rhs)) :
    f.UnaryTypedIn (f.typeOf dest) rhs := by
  obtain ⟨b, hb, hi⟩ := stmtAt?_eq_some.mp hstmt
  exact h b (List.mem_of_getElem? hb) dest rhs (List.mem_of_getElem? hi)

end Function

namespace RangeTable

variable {f : Function} {config : Config} {t : RangeTable} {env : Env} {dest : NameId}
  (fitting : t.Fitting f config) (integral : f.Integral) (knows : t.query.Knows known env)

include fitting integral

theorem Fitting.isIntegral {n : NameId} (h : n < f.nameCount) :
    (t.typeOf n).isIntegral = true := by
  rw [typeOf_eq fitting.names h]
  have wrapping : ∀ ty : ScalarType, (config.effectiveType ty).isIntegral = ty.isIntegral := by
    intro ty
    unfold Config.effectiveType
    split
    · rfl
    · exact ty.wrapping_isIntegral
  rw [wrapping]
  exact integral n h

include knows

/-- What decides a condition is right about the outcome of the comparison. -/
theorem Fitting.decided {cond : Condition} {truth useEquiv answer : Bool}
    (checked : f.checkComparison cond.lhs cond.rhs = .ok ()) (compares : f.Compares env cond truth)
    (read : ∀ n, cond.lhs = .name n ∨ cond.rhs = .name n → known n)
    (decided : (t.query.decideCondition cond.op cond.lhs cond.rhs useEquiv).value = some answer) :
    answer = truth := by
  obtain ⟨a, b, ha, hb, outcome⟩ := compares
  have typed : ∀ n < f.nameCount, f.comparisonType? cond.lhs cond.rhs = some (f.typeOf n) →
      answer = truth := by
    intro n hn type
    have tracked := ScalarType.isTracked_of_isIntegral (integral n hn)
    have effective : (config.effectiveType (f.typeOf n)).isTracked = true :=
      (effectiveType_isTracked ..).trans tracked
    obtain ⟨left, right⟩ := Function.checkComparison_typed checked type
    rw [outcome (by simp [type, tracked]), ← Env.reading_total ha, ← Env.reading_total hb]
    exact knows.decided fitting.proper effective (query_typed fitting.names tracked left)
      (query_typed fitting.names tracked right) read decided
  obtain ⟨op, lhs, rhs⟩ := cond
  cases lhs with
  | name n =>
      have exists_ := Function.checkComparison_names checked (.inl rfl)
      exact typed n exists_ (Function.comparisonType?_name_left exists_)
  | const c =>
      cases rhs with
      | name n =>
          have exists_ := Function.checkComparison_names checked (.inr rfl)
          exact typed n exists_ (Function.comparisonType?_name_right exists_)
      | const d =>
          cases ha
          cases hb
          rw [outcome rfl]
          exact (Option.some.inj decided).symm

/-- The range of a unary operator describes its result. Nothing is found out about operators from or
    to floating point values. -/
theorem Fitting.unaryResult_describes {op : UnaryOp} {x : Operand} (exists_ : dest < f.nameCount)
    (typed : f.UnaryTypedIn (f.typeOf dest) (.unary op x))
    (evaluates : f.Evaluates config env dest v (.unary op x))
    (read : ∀ n, x = .name n → known n ∧ (t.query.rangeOf n).NamesIn S) :
    t.query.Describes S env (t.typeOf dest) (.unary op
      (t.query.operandType (t.typeOf dest) x) (t.typeOf dest) (t.query.operandRange x)) v := by
  have target := typeOf_eq fitting.names exists_
  obtain ⟨operand, same⟩ := typed
  have source : t.query.operandType (t.typeOf dest) x =
      config.effectiveType (f.operandType (f.typeOf dest) x) := by
    cases x with
    | const c => exact target
    | name n =>
        rw [← operand.2]
        exact typeOf_eq fitting.names operand.1
  have sourceTracked : (f.operandType (f.typeOf dest) x).isTracked = true := by
    cases x with
    | const c => exact ScalarType.isTracked_of_isIntegral (integral dest exists_)
    | name n =>
        rw [← operand.2]
        exact ScalarType.isTracked_of_isIntegral (integral n operand.1)
  obtain ⟨a, ha, outcome⟩ := evaluates
  rw [source, target]
  cases floating : op.isFloating with
  | true =>
      have unknown : ∀ vr, ValueRange.foldSingle op (config.effectiveType
          (f.operandType (f.typeOf dest) x)) (config.effectiveType (f.typeOf dest)) vr = .varying := by
        intro vr
        have none_ : ∀ value source target, op.fold value source target = none := by
          intro value source target
          cases op <;> first | rfl | cases floating
        unfold ValueRange.foldSingle
        cases vr.single? <;> simp only [Option.bind_none, Option.bind_some, none_]
      have tracked : (config.effectiveType (f.typeOf dest)).isTracked = true :=
        (effectiveType_isTracked ..).trans (ScalarType.isTracked_of_isIntegral (integral dest exists_))
      have defined : (t.query.operandRange x).isUndefined = false :=
        (knows.operandRange_holds ((effectiveType_isTracked ..).trans sourceTracked)
          (query_typed fitting.names sourceTracked operand) ha fun n hn => (read n hn).1).isUndefined_eq
      have result : ValueRange.unary op (config.effectiveType (f.operandType (f.typeOf dest) x))
          (config.effectiveType (f.typeOf dest)) (t.query.operandRange x) = .varying := by
        unfold ValueRange.unary
        rw [if_neg (by simp [sourceTracked, tracked]), if_neg (by simp [defined])]
        cases op <;> first | exact unknown _ | cases floating
      rw [result]
      exact Query.describes_varying
  | false =>
      have folds : op.fold a (config.effectiveType (f.operandType (f.typeOf dest) x))
          (config.effectiveType (f.typeOf dest)) = some v := by
        simpa [Function.runType, sourceTracked, floating,
          ScalarType.isTracked_of_isIntegral (integral dest exists_)] using outcome
      exact knows.unary_describes fitting.proper ((effectiveType_isTracked ..).trans sourceTracked)
        ((effectiveType_isTracked ..).trans
          (ScalarType.isTracked_of_isIntegral (integral dest exists_)))
        (fun h => congrArg config.effectiveType (same h))
        (query_typed fitting.names sourceTracked operand) ha folds read

/-- The range of a right-hand side describes the value that it gives, if an assertion holds and what
    is read is known where it has been set. -/
theorem Fitting.rhsResult_describes (hf : f.Valid) (limits : f.LimitsTyped) (unary : f.UnaryTyped)
    {block : BlockId} {index : Nat} {rhs : Rhs}
    (hstmt : f.stmtAt? block index = some (.assign dest rhs))
    (evaluates : f.Evaluates config env dest v rhs)
    (asserted : ∀ subject predicate, rhs = .assert subject predicate → predicate.Holds env v)
    (read : ∀ n ∈ rhs.usedNames, (env n).isSome →
      known n ∧ S n ∧ (t.rangeOf n).NamesIn S) (divisionTraps : Bool) :
    t.query.Describes S env (t.typeOf dest)
      (t.query.rhsResult (t.typeOf dest) rhs divisionTraps) v := by
  have exists_ := hf.dest_lt hstmt
  have isIntegral := fitting.isIntegral integral exists_
  have tracked := ScalarType.isTracked_of_isIntegral isIntegral
  have typed := rhs_typed fitting.names hf limits hstmt tracked
  have runType : f.runType config dest = t.typeOf dest := (typeOf_eq fitting.names exists_).symm
  have used : ∀ n o, o ∈ rhs.operands → o = .name n → n ∈ rhs.usedNames := by
    rintro n _ ho rfl
    have read : n ∈ rhs.operands.filterMap Operand.name? :=
      List.mem_filterMap.mpr ⟨_, ho, rfl⟩
    cases rhs <;> first | exact read | exact List.mem_cons_of_mem _ read
  have readOperand : ∀ {o a}, o ∈ rhs.operands → env.operand o = some a → ∀ n, o = .name n →
      known n ∧ S n ∧ (t.rangeOf n).NamesIn S := by
    rintro o a ho ha n rfl
    exact read n (used n _ ho rfl) (Option.isSome_of_eq_some ha)
  cases rhs with
  | copy x =>
      exact knows.copyResult_describes tracked typed evaluates (readOperand (by simp [Rhs.operands])
        evaluates)
  | unary op x =>
      have typed := unary.stmtAt? hstmt
      refine fitting.unaryResult_describes integral knows exists_ typed evaluates ?_
      obtain ⟨a, ha, -⟩ := evaluates
      exact fun n hn => ⟨(readOperand (by simp [Rhs.operands]) ha n hn).1,
        (readOperand (by simp [Rhs.operands]) ha n hn).2.2⟩
  | binary op x y =>
      obtain ⟨a, b, ha, hb, outcome⟩ := evaluates
      rw [runType] at outcome
      refine knows.binaryResult_describes fitting.proper tracked divisionTraps isIntegral ?_ typed.1
        typed.2 ha hb (outcome tracked) ?_
      · rintro n rfl
        exact ScalarType.isTracked_of_isIntegral (fitting.isIntegral integral
          (hf.stmt_usedNames_lt hstmt (used n _ (by simp [Rhs.operands]) rfl)))
      · rintro n (hn | hn)
        · exact (readOperand (by simp [Rhs.operands]) ha n hn).1
        · exact (readOperand (by simp [Rhs.operands]) hb n hn).1
  | compare op x y =>
      obtain ⟨truth, compares, outcome⟩ := evaluates
      rw [runType] at outcome
      rw [outcome tracked]
      refine .of_nameless ?_ fun S => Query.compareResult_namesIn t.query op x y
      obtain ⟨_, -, checked⟩ := bind_eq_ok.mp (hf.checkRhs hstmt)
      have right : ∀ answer, (t.query.decideCondition op x y true).value = some answer →
          answer = truth := by
        have read : ∀ n, x = .name n ∨ y = .name n → known n := by
          obtain ⟨a, b, ha, hb, -⟩ := compares
          rintro n (hn | hn)
          · exact (readOperand (by simp [Rhs.operands]) ha n hn).1
          · exact (readOperand (by simp [Rhs.operands]) hb n hn).1
        exact fun answer decided => fitting.decided integral knows checked compares read decided
      simp only [Query.rhsResult, Query.compareResult]
      split
      · next answer decided =>
          rw [right answer (by rw [decided])]
          exact ⟨le_rfl, le_rfl⟩
      · exact Query.truthValues_holds ..
  | select cond x y =>
      obtain ⟨truth, compares, chosen⟩ := evaluates
      obtain ⟨_, -, checked⟩ := bind_eq_ok.mp (hf.checkRhs hstmt)
      obtain ⟨_, checked, -⟩ := bind_eq_ok.mp checked
      refine Query.Knows.selectResult_describes fitting.proper tracked
        (fun answer decided => fitting.decided integral knows checked compares ?_ decided)
        typed.1 typed.2 ?_
      · obtain ⟨a, b, ha, hb, -⟩ := compares
        rintro n (hn | hn)
        · exact (readOperand (by simp [Rhs.operands]) ha n hn).1
        · exact (readOperand (by simp [Rhs.operands]) hb n hn).1
      · have member : (if truth then x else y) ∈ (Rhs.select cond x y).operands := by
          cases truth <;> simp [Rhs.operands]
        refine knows.operandRange_describes tracked ?_ chosen fun n hn =>
          ⟨(readOperand member chosen n hn).1, (readOperand member chosen n hn).2.2⟩
        cases truth with
        | true => exact typed.1
        | false => exact typed.2
  | assert subject predicate =>
      refine knows.assertResult_describes fitting.proper tracked typed.1 typed.2 evaluates
        (asserted subject predicate rfl) fun n hn => read n hn ?_
      rcases List.mem_cons.mp hn with rfl | limit
      · exact Option.isSome_of_eq_some evaluates
      · have holds := asserted subject predicate rfl
        cases predicate with
        | within => cases limit
        | compare op o =>
            obtain ⟨l, value, -⟩ := holds
            cases o with
            | const => cases limit
            | name m =>
                cases List.mem_singleton.mp limit
                exact Option.isSome_of_eq_some value
  | addressOf =>
      obtain ⟨nonzero, -⟩ := evaluates
      refine .of_nameless (fun within => nonzero ?_) fun S => ValueRange.namesIn_nonnull
      exact Int.le_antisymm within.2 within.1
  | load => exact Query.describes_varying
  | call args nonnull =>
      simp only [Query.rhsResult, ScalarType.isPointer_eq_false isIntegral, Bool.and_false,
        Bool.false_eq_true, if_false]
      exact Query.describes_varying

end RangeTable

end RangeFlow
