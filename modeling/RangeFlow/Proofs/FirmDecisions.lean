import Mathlib.Logic.Encodable.Basic
import RangeFlow.Proofs.DecidedConditions

/-! # Decisions that do not rest on undefined overflow

A decision records whether it rests on overflow being undefined. Where overflow wraps, the sum in a
bound wraps too, and an infinity says nothing. A decision without that record is right there as
well: it never relates two offsets of one name, so it would be the same if each offset of a name
were a name of its own, whose value may be any value of the type.
-/

namespace RangeFlow

namespace Assuming

variable {α β : Type}

@[simp] theorem bind_overflow (a : Assuming α) (f : α → Assuming β) :
    (a >>= f).overflow = (a.overflow || (f a.value).overflow) := rfl

theorem both_overflow (a b : Assuming Bool) :
    (both a b).overflow = (a.overflow || (a.value && b.overflow)) := by
  unfold both
  cases a.value <;> simp

/-- The second conclusion is the first, unless the first rests on overflow being undefined. -/
structure Keeps (a a' : Assuming α) : Prop where
  same : a.overflow = false → a' = a

theorem Keeps.refl (a : Assuming α) : a.Keeps a := ⟨fun _ => rfl⟩

theorem Keeps.bind {a a' : Assuming α} {f f' : α → Assuming β} (first : a.Keeps a')
    (next : (f a.value).Keeps (f' a.value)) : (a >>= f).Keeps (a' >>= f') := by
  refine ⟨fun firm => ?_⟩
  obtain ⟨firmFirst, firmNext⟩ := Bool.or_eq_false_iff.mp firm
  rw [first.same firmFirst]
  show Assuming.mk (f' a.value).value (a.overflow || (f' a.value).overflow) = _
  rw [next.same firmNext]
  rfl

theorem Keeps.both {a a' b b' : Assuming Bool} (first : a.Keeps a') (second : b.Keeps b') :
    (a.both b).Keeps (a'.both b') := by
  refine ⟨fun firm => ?_⟩
  unfold Assuming.both at firm ⊢
  cases answer : a.value with
  | true =>
      simp only [answer, if_true, Bool.or_eq_false_iff] at firm
      simp [first.same firm.1, second.same firm.2, answer]
  | false =>
      simp only [answer, Bool.false_eq_true, if_false] at firm
      simp [first.same firm, answer]

theorem Keeps.either {a a' b b' : Assuming Bool} (first : a.Keeps a') (second : b.Keeps b') :
    (a.either b).Keeps (a'.either b') := by
  refine ⟨fun firm => ?_⟩
  unfold Assuming.either at firm ⊢
  cases answer : a.value with
  | true =>
      simp only [answer, if_true] at firm
      simp [first.same firm, answer]
  | false =>
      simp only [answer, Bool.false_eq_true, if_false, Bool.or_eq_false_iff] at firm
      simp [first.same firm.1, second.same firm.2, answer]

/-- The answer, if there is one and it does not rest on undefined overflow, is the truth. -/
def AgreesFirmly (truth : Bool) (decided : Assuming (Option Bool)) : Prop :=
  decided.overflow = false → decided.Agrees truth

end Assuming

namespace Bound

variable {env : NameId → Int} {ty : ScalarType} {a b : Bound}

/-- The number a bound stands for where sums wrap. -/
def wrappedReading (env : NameId → Int) (ty : ScalarType) : Bound → Int
  | symbolic n offset => ty.wrap (env n + offset)
  | b => b.reading env ty

/-- Each offset of a name becomes a name of its own. -/
def detach : Bound → Bound
  | symbolic n offset => ofName (Encodable.encode (n, offset))
  | b => b

/-- The values of the names that stand for offsets. -/
def detachedValues (env : NameId → Int) (ty : ScalarType) (name : NameId) : Int :=
  match (Encodable.decode name : Option (NameId × Int)) with
  | some (n, offset) => ty.wrap (env n + offset)
  | none => 0

theorem reading_detach (b : Bound) :
    b.detach.reading (detachedValues env ty) ty = b.wrappedReading env ty := by
  cases b with
  | symbolic n offset =>
      simp only [detach, ofName, reading, detachedValues, Encodable.encodek, wrappedReading]
      exact Int.add_zero _
  | negInf | const | posInf => rfl

@[simp] theorem isSymbolic_detach (b : Bound) : b.detach.isSymbolic = b.isSymbolic := by
  cases b <;> rfl

@[simp] theorem isInfinity_detach (b : Bound) : b.detach.isInfinity = b.isInfinity := by
  cases b <;> rfl

@[simp] theorem concrete?_detach (b : Bound) : b.detach.concrete? ty = b.concrete? ty := by
  cases b <;> rfl

theorem detach_of_not_isSymbolic (h : a.isSymbolic = false) : a.detach = a := by
  cases a with
  | symbolic => cases h
  | negInf | const | posInf => rfl

@[simp] theorem detach_inj : a.detach = b.detach ↔ a = b := by
  refine ⟨fun same => ?_, fun same => congrArg detach same⟩
  cases a with
  | symbolic n offset =>
      cases b with
      | symbolic m other =>
          simpa [detach, ofName, Encodable.encode_inj] using same
      | negInf | const | posInf => cases same
  | negInf | const | posInf =>
      cases b with
      | symbolic => cases same
      | negInf | const | posInf => exact same

theorem IsLower.detach (h : a.IsLower ty) : a.detach.IsLower ty := by
  cases a with
  | symbolic => exact ⟨trivial, by simp [Bound.detach, ofName]⟩
  | negInf | const | posInf => exact h

theorem IsUpper.detach (h : a.IsUpper ty) : a.detach.IsUpper ty := by
  cases a with
  | symbolic => exact ⟨trivial, by simp [Bound.detach, ofName]⟩
  | negInf | const | posInf => exact h

/-- Two offsets of one name compare only by the assumption. -/
theorem compareAssuming_keeps (ty : ScalarType) (a b : Bound) :
    (compareAssuming ty a b).Keeps (compareAssuming ty a.detach b.detach) := by
  refine ⟨fun firm => ?_⟩
  by_cases same : a = b
  · simp only [compareAssuming, same, if_true]
  · have differ : a.detach ≠ b.detach := fun h => same (detach_inj.mp h)
    simp only [compareAssuming, if_neg same] at firm
    simp only [compareAssuming, if_neg same, if_neg differ]
    cases a with
    | symbolic n c =>
        cases b with
        | symbolic m d =>
            dsimp only at firm
            split at firm
            · cases firm
            · next unrelated =>
                have unequal : ¬ (n = m ∧ c = d) := by simpa using same
                simp [detach, ofName, -not_and, unequal, unrelated]
        | negInf | const | posInf => rfl
    | negInf | const | posInf =>
        cases b with
        | symbolic | negInf | const | posInf => rfl

theorem less?_detach (ty : ScalarType) (a b : Bound) :
    less? ty a.detach b.detach = less? ty a b := by
  by_cases symbolic : a.isSymbolic = true ∨ b.isSymbolic = true
  · by_cases same : a = b
    · subst same
      cases a <;> simp [less?, Bound.detach, ofName, concrete?] at symbolic ⊢
    · have unknown : compare ty a b = .unknown := compare_of_isSymbolic same symbolic
      have unknown' : compare ty a.detach b.detach = .unknown :=
        compare_of_isSymbolic (fun h => same (detach_inj.mp h)) (by simpa using symbolic)
      have none_ : a.concrete? ty = none ∨ b.concrete? ty = none := by
        cases a <;> cases b <;> simp_all [isSymbolic, concrete?]
      unfold less?
      simp only [concrete?_detach, unknown, unknown']
      rcases none_ with h | h
      · simp [h]
      · simp [h]
  · rw [not_or, Bool.not_eq_true, Bool.not_eq_true] at symbolic
    rw [detach_of_not_isSymbolic symbolic.1, detach_of_not_isSymbolic symbolic.2]

theorem inside?_detach (ty : ScalarType) (b lo hi : Bound) :
    inside? ty b.detach lo.detach hi.detach = inside? ty b lo hi := by
  simp only [inside?, less?_detach]

end Bound

namespace Extent

/-- Each offset of a name becomes a name of its own. -/
def detach : Extent → Extent
  | inside lo hi => inside lo.detach hi.detach
  | outside lo hi => outside lo.detach hi.detach
  | e => e

/-- The number is among the values where sums wrap. -/
def HoldsWrapped (env : NameId → Int) (ty : ScalarType) (v : Int) : Extent → Prop
  | undefined => False
  | inside lo hi => lo.wrappedReading env ty ≤ v ∧ v ≤ hi.wrappedReading env ty
  | outside lo hi => ¬ (lo.wrappedReading env ty ≤ v ∧ v ≤ hi.wrappedReading env ty)
  | varying => True

theorem holds_detach {env : NameId → Int} {ty : ScalarType} {v : Int} {e : Extent} :
    e.detach.Holds (Bound.detachedValues env ty) ty v ↔ e.HoldsWrapped env ty v := by
  cases e with
  | undefined | varying => exact .rfl
  | inside lo hi | outside lo hi => simp only [detach, Holds, HoldsWrapped, Bound.reading_detach]

theorem Proper.detach {ty : ScalarType} {e : Extent} (h : e.Proper ty) : e.detach.Proper ty := by
  cases h with
  | undefined => exact .undefined
  | varying => exact .varying
  | inside low high => exact .inside low.detach high.detach
  | outside low high order => exact .outside low high order
  | apartFrom n offset => exact .apartFrom _ 0

end Extent

namespace ValueRange

variable {env : NameId → Int} {ty : ScalarType} {a b : ValueRange} {x y : Int}

/-- Each offset of a name becomes a name of its own. -/
def detach (vr : ValueRange) : ValueRange := { vr with extent := vr.extent.detach }

/-- Every value of the first range is one of the second. -/
def Within (env : NameId → Int) (ty : ScalarType) (a b : ValueRange) : Prop :=
  ∀ v, a.Holds env ty v → b.Holds env ty v

/-- The number is among the values where overflow wraps; there an infinity says nothing. -/
def HoldsWrapped (env : NameId → Int) (ty : ScalarType) (vr : ValueRange) (v : Int) : Prop :=
  vr.usesInfinity = false → vr.extent.HoldsWrapped env ty v

theorem Proper.detach (h : a.Proper ty) : a.detach.Proper ty := Extent.Proper.detach h

@[simp] theorem min_detach (vr : ValueRange) : vr.detach.min = vr.min.detach := by
  obtain ⟨extent, equiv⟩ := vr
  cases extent <;> rfl

@[simp] theorem max_detach (vr : ValueRange) : vr.detach.max = vr.max.detach := by
  obtain ⟨extent, equiv⟩ := vr
  cases extent <;> rfl

@[simp] theorem isBounded_detach (vr : ValueRange) : vr.detach.isBounded = vr.isBounded := by
  obtain ⟨extent, equiv⟩ := vr
  cases extent <;> rfl

@[simp] theorem isAnti_detach (vr : ValueRange) : vr.detach.isAnti = vr.isAnti := by
  obtain ⟨extent, equiv⟩ := vr
  cases extent <;> rfl

@[simp] theorem isRange_detach (vr : ValueRange) : vr.detach.isRange = vr.isRange := by
  obtain ⟨extent, equiv⟩ := vr
  cases extent <;> rfl

theorem usesInfinity_eq (vr : ValueRange) :
    vr.usesInfinity = (vr.isBounded && (vr.min.isInfinity || vr.max.isInfinity)) := rfl

@[simp] theorem isInfiniteRange_detach (vr : ValueRange) :
    vr.detach.isInfiniteRange = vr.isInfiniteRange := by
  simp [isInfiniteRange, usesInfinity_eq]

@[simp] theorem usable_detach (vr : ValueRange) : vr.detach.usable = vr.usable := by
  simp [usable]

section

variable (ty : ScalarType) (a b : ValueRange)

theorem ordered_keeps (order : ValueOrder) (lo hi : Bound) :
    (ordered ty order lo hi).Keeps (ordered ty order lo.detach hi.detach) :=
  (Bound.compareAssuming_keeps ty lo hi).bind (.refl _)

theorem compareWithAnti_keeps (op : CmpOp) :
    (compareWithAnti op ty a b).Keeps (compareWithAnti op ty a.detach b.detach) := by
  simp only [compareWithAnti, min_detach, max_detach]
  exact .bind (.both (ordered_keeps ..) (ordered_keeps ..)) (.refl _)

theorem equalRanges_keeps : (equalRanges ty a b).Keeps (equalRanges ty a.detach b.detach) := by
  simp only [equalRanges, min_detach, max_detach]
  refine .bind (.both (ordered_keeps ..) (ordered_keeps ..)) ?_
  split
  · exact .bind (Bound.compareAssuming_keeps ..) (.bind (Bound.compareAssuming_keeps ..) (.refl _))
  · exact .bind (.either (ordered_keeps ..) (ordered_keeps ..)) (.refl _)

theorem distinctRanges_keeps :
    (distinctRanges ty a b).Keeps (distinctRanges ty a.detach b.detach) := by
  simp only [distinctRanges, min_detach, max_detach]
  refine .bind (Bound.compareAssuming_keeps ..) (.bind (Bound.compareAssuming_keeps ..) ?_)
  split
  · exact .refl _
  · refine .bind (.both (ordered_keeps ..) (.both (ordered_keeps ..) ?_)) (.refl _)
    exact .both (ordered_keeps ..) (ordered_keeps ..)

theorem belowRanges_keeps (strict : Bool) :
    (belowRanges strict ty a b).Keeps (belowRanges strict ty a.detach b.detach) := by
  simp only [belowRanges, min_detach, max_detach, isInfiniteRange_detach]
  refine .bind (Bound.compareAssuming_keeps ..) ?_
  split
  · exact .refl _
  · exact .bind (Bound.compareAssuming_keeps ..) (.refl _)

theorem compareIntervals_keeps (op : CmpOp) :
    (compareIntervals op ty a b).Keeps (compareIntervals op ty a.detach b.detach) := by
  cases op with
  | eq => exact equalRanges_keeps ty a b
  | ne => exact distinctRanges_keeps ty a b
  | lt => exact belowRanges_keeps ty a b true
  | le => exact belowRanges_keeps ty a b false
  | gt => exact belowRanges_keeps ty b a true
  | ge => exact belowRanges_keeps ty b a false

theorem compare_keeps (op : CmpOp) :
    (compare op ty a b).Keeps (compare op ty a.detach b.detach) := by
  simp only [compare, isBounded_detach, isAnti_detach, usable_detach]
  split
  · exact .refl _
  · split
    · split
      · exact .refl _
      · split
        · exact compareWithAnti_keeps ty a b op
        · exact compareWithAnti_keeps ty b a op
    · refine .bind (.refl _) ?_
      split
      · exact compareIntervals_keeps ty a b op
      · exact .refl _

theorem compareIntervalWithBound_keeps (op : CmpOp) (bound : Bound) :
    (compareIntervalWithBound op ty a bound).Keeps
      (compareIntervalWithBound op ty a.detach bound.detach) := by
  have order := Bound.compareAssuming_keeps ty
  have same := ordered_keeps ty
  simp only [compareIntervalWithBound, min_detach, max_detach, isInfiniteRange_detach]
  cases op with
  | eq =>
      refine .bind (same ..) ?_
      split
      · exact .bind (order ..) (.refl _)
      · exact .bind (.either (same ..) (same ..)) (.refl _)
  | ne =>
      refine .bind (.either (same ..) (same ..)) ?_
      split
      · exact .refl _
      · exact .bind (.both (same ..) (same ..)) (.refl _)
  | lt | le | gt | ge =>
      refine .bind (order ..) ?_
      split
      · exact .refl _
      · exact .bind (order ..) (.refl _)

theorem compareWithBound_keeps (op : CmpOp) (bound : Bound) :
    (compareWithBound op ty a bound).Keeps (compareWithBound op ty a.detach bound.detach) := by
  simp only [compareWithBound, isBounded_detach, isAnti_detach, usable_detach, min_detach,
    max_detach, Bound.inside?_detach]
  split
  · exact .refl _
  · split
    · exact .refl _
    · refine .bind (.refl _) ?_
      split
      · exact compareIntervalWithBound_keeps ty a op bound
      · exact .refl _

end

theorem usesInfinity_of_usable (h : a.usable.overflow = false) : a.usesInfinity = false := by
  unfold usable at h
  split at h
  · cases h
  · next finite =>
      have finite' : a.max.isInfinity = false := h
      simp [usesInfinity_eq, finite, finite']

theorem Proper.usesInfinity_of_isAnti (h : a.Proper ty) (anti : a.isAnti = true) :
    a.usesInfinity = false := by
  obtain ⟨extent, equiv⟩ := a
  cases (h : extent.Proper ty) with
  | undefined | varying | inside => cases anti
  | outside | apartFrom => rfl

/-- An interval that is decided to be the gap of a complement has the ends of the complement. -/
theorem usesInfinity_of_compareWithAnti {op : CmpOp} {answer : Bool}
    (finite : a.usesInfinity = false) (bounded : a.isBounded = true)
    (decided : (compareWithAnti op ty a b).value = some answer) : b.usesInfinity = false := by
  simp only [compareWithAnti, Assuming.bind_value, Assuming.both_value, ordered_value,
    Assuming.pure_value] at decided
  split at decided
  · next same =>
      simp only [Bool.and_eq_true, beq_iff_eq] at same
      have low : a.min = b.min := (Bound.compared_of_eq same.1).eq
      have high : a.max = b.max := (Bound.compared_of_eq same.2).eq
      rw [usesInfinity_eq, bounded, Bool.true_and, low, high] at finite
      rw [usesInfinity_eq, finite, Bool.and_false]
  · cases decided

/-- A firm decision reads no infinity. -/
theorem usesInfinity_of_compare {op : CmpOp} {answer : Bool} (properA : a.Proper ty)
    (properB : b.Proper ty) (firm : (compare op ty a b).overflow = false)
    (decided : (compare op ty a b).value = some answer) :
    a.usesInfinity = false ∧ b.usesInfinity = false := by
  unfold compare at firm decided
  split at decided
  · cases decided
  · next bounded =>
      obtain ⟨boundedA, boundedB⟩ : a.isBounded = true ∧ b.isBounded = true := by
        simpa using bounded
      rw [if_neg bounded] at firm
      split at decided
      · next anti =>
          split at decided
          · cases decided
          · split at decided
            · next antiA =>
                have finite := properA.usesInfinity_of_isAnti antiA
                exact ⟨finite, usesInfinity_of_compareWithAnti finite boundedA decided⟩
            · next rangeA =>
                have antiB : b.isAnti = true := by simpa [rangeA] using anti
                have finite := properB.usesInfinity_of_isAnti antiB
                exact ⟨usesInfinity_of_compareWithAnti finite boundedB decided, finite⟩
      · next ranges =>
          rw [if_neg ranges] at firm
          rw [Assuming.bind_overflow, Bool.or_eq_false_iff, Assuming.both_overflow,
            Bool.or_eq_false_iff] at firm
          simp only [Assuming.bind_value, Assuming.both_value] at decided
          split at decided
          · next usable =>
              obtain ⟨usableA, -⟩ := Bool.and_eq_true_iff.mp usable
              have finiteB : b.usable.overflow = false := by simpa [usableA] using firm.1.2
              exact ⟨usesInfinity_of_usable firm.1.1, usesInfinity_of_usable finiteB⟩
          · cases decided

theorem usesInfinity_of_compareWithBound {op : CmpOp} {bound : Bound} {answer : Bool}
    (proper : a.Proper ty) (firm : (compareWithBound op ty a bound).overflow = false)
    (decided : (compareWithBound op ty a bound).value = some answer) : a.usesInfinity = false := by
  unfold compareWithBound at firm decided
  split at decided
  · cases decided
  · next bounded =>
      rw [if_neg bounded] at firm
      split at decided
      · next anti => exact proper.usesInfinity_of_isAnti anti
      · next range =>
          rw [if_neg range, Assuming.bind_overflow, Bool.or_eq_false_iff] at firm
          exact usesInfinity_of_usable firm.1

/-- A firm decision about two ranges is right where overflow wraps. -/
theorem compare_agreesFirmly (op : CmpOp) (properA : a.Proper ty) (properB : b.Proper ty)
    (ha : a.HoldsWrapped env ty x) (hb : b.HoldsWrapped env ty y) :
    (compare op ty a b).AgreesFirmly (op.eval x y) := by
  intro firm answer decided
  obtain ⟨finiteA, finiteB⟩ := usesInfinity_of_compare properA properB firm decided
  have holdsA : a.detach.Holds (Bound.detachedValues env ty) ty x :=
    Extent.holds_detach.mpr (ha finiteA)
  have holdsB : b.detach.Holds (Bound.detachedValues env ty) ty y :=
    Extent.holds_detach.mpr (hb finiteB)
  rw [← (compare_keeps ty a b op).same firm] at decided
  exact compare_agrees op properA.detach properB.detach holdsA holdsB answer decided

theorem compareWithBound_agreesFirmly (op : CmpOp) (c : Int) (proper : a.Proper ty)
    (ha : a.HoldsWrapped env ty x) :
    (compareWithBound op ty a (.const c)).AgreesFirmly (op.eval x c) := by
  intro firm answer decided
  have finite := usesInfinity_of_compareWithBound proper firm decided
  have holds : a.detach.Holds (Bound.detachedValues env ty) ty x :=
    Extent.holds_detach.mpr (ha finite)
  rw [← (compareWithBound_keeps ty a op (.const c)).same firm] at decided
  have denotes : (Bound.const c).Denotes (Bound.detachedValues env ty) ty c := rfl
  exact compareWithBound_agrees op proper.detach holds denotes answer decided

end ValueRange

namespace Query

variable {query : Query} {env : NameId → Int} {ty : ScalarType} {op : CmpOp} {truth : Bool}

/-- The values of the names are possible where overflow wraps: each is a value of its type, and of
    its range unless that has an infinity; names that are known to be equal are of one type and have
    one value. -/
structure RespectsWrapped (query : Query) (env : NameId → Int) : Prop where
  fits : ∀ n, (query.typeOf n).isTracked = true → (query.typeOf n).fits (env n) = true
  holds : ∀ n, (query.typeOf n).isTracked = true →
    (query.rangeOf n).HoldsWrapped env (query.typeOf n) (env n)
  equal : ∀ n, ∀ m ∈ (query.rangeOf n).equiv, query.typeOf m = query.typeOf n ∧ env m = env n

/-- If a firm answer has been given and none contradicts it, it is right. -/
def Agreement.AgreesFirmly (truth : Bool) (agreement : Agreement) : Prop :=
  agreement.conflict = false → agreement.allAssume = false → agreement.answer = some truth

theorem Agreement.start_agreesFirmly : Agreement.start.AgreesFirmly truth := by
  rintro - ⟨⟩

/-- One firm answer makes the common answer firm: the others are equal to it. -/
theorem Agreement.AgreesFirmly.record {agreement : Agreement} (h : agreement.AgreesFirmly truth)
    {decided : Assuming (Option Bool)} (right : decided.AgreesFirmly truth) :
    (agreement.record decided).AgreesFirmly truth := by
  unfold Agreement.record
  split
  · exact h
  · next answer given =>
      split
      · exact h
      · next open_ =>
          intro agree firm
          rcases Bool.and_eq_false_iff.mp firm with earlier | now
          · have known := h (Bool.eq_false_iff.mpr open_) earlier
            have same : truth = answer := by simpa [known] using agree
            rw [same]
          · rw [right now answer given]

theorem Agreement.AgreesFirmly.result {agreement : Agreement} (h : agreement.AgreesFirmly truth) :
    agreement.result.AgreesFirmly truth := by
  unfold Agreement.result
  split
  · rintro - _ ⟨⟩
  · next agree =>
      intro firm answer given
      have firm : agreement.allAssume = false := by
        simpa [show agreement.answer = some answer from given] using firm
      have known := h (Bool.eq_false_iff.mpr agree) firm
      exact Option.some.inj (given.symm.trans known)

theorem foldl_record_agreesFirmly {names : List NameId}
    {compare : NameId → Assuming (Option Bool)}
    (right : ∀ n ∈ names, (compare n).AgreesFirmly truth) {start : Agreement}
    (h : start.AgreesFirmly truth) :
    (names.foldl (fun agreement n => agreement.record (compare n)) start).AgreesFirmly truth := by
  induction names generalizing start with
  | nil => exact h
  | cons first rest ih =>
      exact ih (fun n hn => right n (List.mem_cons_of_mem _ hn))
        (h.record (right first (List.mem_cons_self ..)))

variable (hq : query.Proper) (respects : query.RespectsWrapped env)

include respects in
/-- A name equals itself where overflow wraps too. -/
theorem comparedRange_holdsWrapped {n : NameId} (tracked : (query.typeOf n).isTracked = true) :
    (query.comparedRange n).HoldsWrapped env (query.typeOf n) (env n) := by
  simp only [comparedRange]
  split
  · have reading : (Bound.ofName n).wrappedReading env (query.typeOf n) = env n := by
      simp only [Bound.ofName, Bound.wrappedReading, Int.add_zero]
      exact ScalarType.wrap_of_fits (respects.fits n tracked)
    exact fun _ => ⟨Int.le_of_eq reading, Int.le_of_eq reading.symm⟩
  · exact respects.holds n tracked

include hq respects

theorem Shows.holdsWrapped {n : NameId} {vr : ValueRange} (h : query.Shows n vr)
    (tracked : (query.typeOf n).isTracked = true) :
    vr.Proper (query.typeOf n) ∧ vr.HoldsWrapped env (query.typeOf n) (env n) := by
  cases h with
  | own => exact ⟨hq n tracked, respects.holds n tracked⟩
  | equal member =>
      obtain ⟨type, value⟩ := equal_of_mem_equivalents respects.equal member
      rw [← type] at tracked ⊢
      rw [← value]
      exact ⟨comparedRange_proper hq tracked, comparedRange_holdsWrapped respects tracked⟩

theorem RespectsWrapped.judgement : Judgement query env Assuming.AgreesFirmly where
  equal n m h := (equal_of_mem_equivalents respects.equal h).2
  ranges op a b tracked type x y showsA showsB := by
    obtain ⟨properA, holdsA⟩ := showsA.holdsWrapped hq respects tracked
    obtain ⟨properB, holdsB⟩ := showsB.holdsWrapped hq respects (type ▸ tracked)
    rw [type] at properB holdsB
    exact ValueRange.compare_agreesFirmly op properA properB holdsA holdsB
  number op a c tracked x shows := by
    obtain ⟨proper, holds⟩ := shows.holdsWrapped hq respects tracked
    exact ValueRange.compareWithBound_agreesFirmly op c proper holds
  undecided truth := by rintro - _ ⟨⟩
  right truth := by
    rintro - _ ⟨⟩
    rfl
  agreed single := (foldl_record_agreesFirmly single Agreement.start_agreesFirmly).result
  otherwise useEquiv first second := by
    intro firm answer h
    obtain ⟨firmFirst, firmNext⟩ := Bool.or_eq_false_iff.mp firm
    simp only [Assuming.bind_value] at h
    split at h
    · exact first firmFirst answer h
    · next undecided =>
        simp only [undecided] at firmNext
        exact second firmNext answer h

omit hq respects

/-- A decided condition that does not rest on undefined overflow has the answer that the values of
    its operands give, whatever values the names may have where overflow wraps. -/
theorem firmly_decided_eq_eval {query : Query} (proper : query.Proper) {env : NameId → Int}
    (respects : query.RespectsWrapped env) (op : CmpOp) {ty : ScalarType} {lhs rhs : Operand}
    (left : query.Typed ty lhs) (right : query.Typed ty rhs) {useEquiv answer : Bool}
    (decided : query.decideCondition op lhs rhs useEquiv = ⟨some answer, false⟩) :
    answer = op.eval (lhs.reading env) (rhs.reading env) := by
  have agrees : (query.decideCondition op lhs rhs useEquiv).AgreesFirmly
      (op.eval (lhs.reading env) (rhs.reading env)) :=
    (respects.judgement proper).decideCondition left right
  rw [decided] at agrees
  exact agrees rfl answer rfl

/-- The ranges of `_1` and `_2`, which equal `_0`, both tell that it is positive, that of `_1` only
    if nothing overflows. The values of `_4` and `_5` are both one more than that of `_3`. -/
def twoReasons : Query where
  rangeOf
    | 0 => ⟨.inside (.const 0) (.const 100), .ofList [1, 2]⟩
    | 1 => .range (.const 10) .posInf
    | 2 => .range (.const 5) (.const 9)
    | 4 | 5 => .range (.symbolic 3 1) (.symbolic 3 1)
    | _ => .varying
  typeOf _ := .int ⟨8, eight_bits⟩ .signed

/-- The value of `_1` is not in its range, and the sum in the ranges of `_4` and `_5` wraps. -/
def overflownValues : NameId → Int
  | 0 | 1 | 2 => 7
  | 3 => 127
  | 4 | 5 => -128
  | _ => 0

theorem firmly_decided_eq_eval_twoReasons :
    twoReasons.Proper ∧ twoReasons.RespectsWrapped overflownValues ∧
    ¬ twoReasons.Respects overflownValues ∧
    (twoReasons.decideCondition .gt (.name 1) (.const 0) true) = ⟨some true, true⟩ ∧
    (twoReasons.decideCondition .gt (.name 0) (.const 0) true) = ⟨some true, false⟩ ∧
    true = CmpOp.gt.eval 7 0 ∧
    (twoReasons.decideCondition .eq (.name 4) (.name 5) false) = ⟨some true, false⟩ ∧
    true = CmpOp.eq.eval (-128) (-128) := by
  have proper : twoReasons.Proper := by
    intro n _
    match n with
    | 0 | 2 =>
        exact .inside (Bound.isLower_const.mpr (by decide)) (Bound.isUpper_const.mpr (by decide))
    | 1 => exact .inside (Bound.isLower_const.mpr (by decide)) ⟨trivial, by decide⟩
    | 4 | 5 => exact .inside ⟨trivial, by decide⟩ ⟨trivial, by decide⟩
    | 3 => exact .varying
    | n + 6 => exact .varying
  have respects : twoReasons.RespectsWrapped overflownValues := by
    refine ⟨fun n _ => ?_, fun n _ => ?_, fun n m hm => ⟨rfl, ?_⟩⟩
    · match n with
      | 0 | 1 | 2 | 3 | 4 | 5 => decide
      | n + 6 => rfl
    · match n with
      | 0 | 2 | 4 | 5 => exact fun _ => ⟨by decide, by decide⟩
      | 1 => rintro ⟨⟩
      | 3 => exact fun _ => trivial
      | n + 6 => exact fun _ => trivial
    · match n with
      | 0 =>
          rcases List.mem_cons.mp hm with rfl | hm
          · rfl
          · cases List.mem_singleton.mp hm
            rfl
      | 1 | 2 | 3 | 4 | 5 => cases hm
      | n + 6 => cases hm
  have name : ∀ n, twoReasons.Typed (.int ⟨8, eight_bits⟩ .signed) (.name n) := fun _ => rfl
  have zero : twoReasons.Typed (.int ⟨8, eight_bits⟩ .signed) (.const 0) :=
    ScalarType.fits_zero _
  have positive : twoReasons.decideCondition .gt (.name 0) (.const 0) true =
      ⟨some true, false⟩ := by decide
  have equal : twoReasons.decideCondition .eq (.name 4) (.name 5) false =
      ⟨some true, false⟩ := by decide
  refine ⟨proper, respects, fun strict => ?_, by decide, positive, ?_, equal, ?_⟩
  · exact absurd (strict.holds 1 rfl).1 (by decide)
  · exact firmly_decided_eq_eval proper respects .gt (name 0) zero positive
  · exact firmly_decided_eq_eval proper respects .eq (name 4) (name 5) equal

/-- The truth value of a comparison whose decision rests on undefined overflow stays open. -/
theorem compareResult_of_overflow {lhs rhs : Operand}
    (assumes : (query.decideCondition op lhs rhs true).overflow = true) (truth : Bool) :
    (query.compareResult op lhs rhs ty).Holds env ty (ty.wrap (if truth then 1 else 0)) := by
  unfold compareResult
  split
  · next firm =>
      rw [firm] at assumes
      cases assumes
  · exact truthValues_holds env ty truth

/-- A choice drops the other side if its condition is decided, whatever the decision rests on. -/
theorem selectResult_covers_iff {cond : Condition} {x y : Operand}
    (first : (query.operandRange x).Proper ty) (second : (query.operandRange y).Proper ty) :
    ((query.operandRange x).Within env ty (query.selectResult cond x y ty) ∧
      (query.operandRange y).Within env ty (query.selectResult cond x y ty)) ↔
    ((query.decideCondition cond.op cond.lhs cond.rhs false).value = some true →
      (query.operandRange y).Within env ty (query.operandRange x)) ∧
    ((query.decideCondition cond.op cond.lhs cond.rhs false).value = some false →
      (query.operandRange x).Within env ty (query.operandRange y)) := by
  unfold selectResult
  cases decided : (query.decideCondition cond.op cond.lhs cond.rhs false).value with
  | none =>
      have covers := (ValueRange.meet_covers first second).2 env
      exact iff_of_true ⟨fun v hx => covers v (.inl hx), fun v hy => covers v (.inr hy)⟩
        ⟨nofun, nofun⟩
  | some answer =>
      cases answer with
      | true =>
          exact ⟨fun h => ⟨fun _ => h.2, nofun⟩, fun h => ⟨fun _ hx => hx, h.1 rfl⟩⟩
      | false =>
          exact ⟨fun h => ⟨nofun, fun _ => h.1⟩, fun h => ⟨h.2 rfl, fun _ hy => hy⟩⟩

/-- Where evaluating a condition rests on undefined overflow, a comparison keeps both truth values.
    A choice keeps the values of both sides exactly if the condition stays undecided all the same,
    or the side that is dropped has no values of its own. -/
theorem rhsResult_of_overflow (query : Query) (env : NameId → Int) (ty : ScalarType)
    (divisionTraps : Bool) :
    (∀ op lhs rhs, (query.decideCondition op lhs rhs true).overflow = true → ∀ truth : Bool,
      (query.rhsResult ty (.compare op lhs rhs) divisionTraps).Holds env ty
        (ty.wrap (if truth then 1 else 0))) ∧
    (∀ cond x y, (query.decideCondition cond.op cond.lhs cond.rhs false).overflow = true →
      (query.operandRange x).Proper ty → (query.operandRange y).Proper ty →
      (((query.operandRange x).Within env ty
          (query.rhsResult ty (.select cond x y) divisionTraps) ∧
        (query.operandRange y).Within env ty
          (query.rhsResult ty (.select cond x y) divisionTraps)) ↔
      ((query.decideCondition cond.op cond.lhs cond.rhs false).value = some true →
        (query.operandRange y).Within env ty (query.operandRange x)) ∧
      ((query.decideCondition cond.op cond.lhs cond.rhs false).value = some false →
        (query.operandRange x).Within env ty (query.operandRange y)))) :=
  ⟨fun _ _ _ assumes truth => compareResult_of_overflow assumes truth,
    fun _ _ _ _ first second => selectResult_covers_iff first second⟩

/-- The range of `_0` is known to be positive only if nothing overflows. -/
def mayOverflow : Query where
  rangeOf
    | 0 => .range (.const 1) .posInf
    | _ => .varying
  typeOf _ := .int ⟨8, eight_bits⟩ .signed

/-- Whether `_0` is positive is decided but not used for the comparison; whether it is above five is
    not decided, and the choice keeps both sides. -/
theorem rhsResult_of_overflow_mayOverflow :
    let i8 := ScalarType.int ⟨8, eight_bits⟩ .signed
    let choice := Rhs.select ⟨.gt, .name 0, .const 5⟩ (.const 5) (.const 9)
    mayOverflow.decideCondition .gt (.name 0) (.const 0) true = ⟨some true, true⟩ ∧
    (mayOverflow.rhsResult i8 (.compare .gt (.name 0) (.const 0)) false).Holds
      (fun _ => 1) i8 0 ∧
    mayOverflow.decideCondition .gt (.name 0) (.const 5) false = ⟨none, true⟩ ∧
    (ValueRange.singleton 5).Within (fun _ => 1) i8 (mayOverflow.rhsResult i8 choice false) ∧
    (ValueRange.singleton 9).Within (fun _ => 1) i8 (mayOverflow.rhsResult i8 choice false) := by
  intro i8 choice
  obtain ⟨comparisons, choices⟩ := rhsResult_of_overflow mayOverflow (fun _ => 1) i8 false
  have undecided : mayOverflow.decideCondition .gt (.name 0) (.const 5) false = ⟨none, true⟩ := by
    decide
  refine ⟨by decide, comparisons .gt (.name 0) (.const 0) (by decide) false, undecided, ?_⟩
  refine (choices ⟨.gt, .name 0, .const 5⟩ (.const 5) (.const 9) (by decide)
    (ValueRange.singleton_proper (by decide)) (ValueRange.singleton_proper (by decide))).mpr ?_
  simp [undecided]

/-- The choice drops nine because `_0` is positive if nothing overflows. -/
theorem rhsResult_narrows_mayOverflow :
    let i8 := ScalarType.int ⟨8, eight_bits⟩ .signed
    let choice := Rhs.select ⟨.gt, .name 0, .const 0⟩ (.const 5) (.const 9)
    mayOverflow.Proper ∧
    mayOverflow.decideCondition .gt (.name 0) (.const 0) false = ⟨some true, true⟩ ∧
    (mayOverflow.operandRange (.const 9)).Holds (fun _ => 1) i8 9 ∧
    ¬ (mayOverflow.rhsResult i8 choice false).Holds (fun _ => 1) i8 9 := by
  have proper : mayOverflow.Proper := by
    intro n _
    match n with
    | 0 => exact .inside (Bound.isLower_const.mpr (by decide)) ⟨trivial, by decide⟩
    | n + 1 => exact .varying
  exact ⟨proper, by decide, ⟨by decide, by decide⟩, fun holds => absurd holds.2 (by decide)⟩

end Query

end RangeFlow
