import RangeFlow.Proofs.DecidedRanges
import RangeFlow.Proofs.Refinement

/-! # Decided conditions are right

A condition is decided from the ranges of its operands or from those of names that equal them. When
the names have values that these ranges allow, each single answer is right, and so is what many of
them agree on.
-/

namespace RangeFlow

/-- The number an operand stands for when the names have values. -/
def Operand.reading (env : NameId → Int) : Operand → Int
  | .name n => env n
  | .const c => c

theorem CmpOp.eval_self (op : CmpOp) (x : Int) :
    op.eval x x = (op == .eq || op == .le || op == .ge) := by
  cases op <;> simp [CmpOp.eval]

namespace Query

variable {query : Query} {env : NameId → Int} {ty : ScalarType} {op : CmpOp} {truth : Bool}

/-- The values of the names are possible by what is known about them: each is a value of its type
    and of its range, and names that are known to be equal are of one type and have one value. -/
structure Respects (query : Query) (env : NameId → Int) : Prop where
  fits : ∀ n, (query.typeOf n).isTracked = true → (query.typeOf n).fits (env n) = true
  holds : ∀ n, (query.typeOf n).isTracked = true →
    (query.rangeOf n).Holds env (query.typeOf n) (env n)
  equal : ∀ n, ∀ m ∈ (query.rangeOf n).equiv, query.typeOf m = query.typeOf n ∧ env m = env n

/-- Only right answers have been given. -/
def Agreement.Agrees (truth : Bool) (agreement : Agreement) : Prop :=
  ∀ answer, agreement.answer = some answer → answer = truth

theorem Agreement.Agrees.record {agreement : Agreement} (h : agreement.Agrees truth)
    {decided : Assuming (Option Bool)} (right : decided.Agrees truth) :
    (agreement.record decided).Agrees truth := by
  unfold Agreement.record
  split
  · exact h
  · next answer given =>
      split
      · exact h
      · rintro _ ⟨⟩
        exact right answer given

theorem Agreement.Agrees.result {agreement : Agreement} (h : agreement.Agrees truth) :
    agreement.result.Agrees truth := by
  unfold Agreement.result
  split
  · rintro _ ⟨⟩
  · exact h

/-- Comparisons that are right give a right common answer. -/
theorem foldl_record_agrees {names : List NameId} {compare : NameId → Assuming (Option Bool)}
    (right : ∀ n ∈ names, (compare n).Agrees truth) {start : Agreement}
    (h : start.Agrees truth) :
    (names.foldl (fun agreement n => agreement.record (compare n)) start).Agrees truth := by
  induction names generalizing start with
  | nil => exact h
  | cons first rest ih =>
      exact ih (fun n hn => right n (List.mem_cons_of_mem _ hn))
        (h.record (right first (List.mem_cons_self ..)))

theorem Agreement.start_agrees : Agreement.start.Agrees truth := by
  rintro _ ⟨⟩

/-- What a comparison reads about a name: its range, or the range of a name that equals it. -/
inductive Shows (query : Query) (n : NameId) : ValueRange → Prop where
  | own : Shows query n (query.rangeOf n)
  | equal {m : NameId} (h : m ∈ query.equivalents n) : Shows query n (query.comparedRange m)

/-- A judgement of decisions by the truth of what they decide. It is made about comparisons of what
    is known about names of one type, and it passes on to what is decided from many of them. -/
structure Judgement (query : Query) (env : NameId → Int)
    (judge : Bool → Assuming (Option Bool) → Prop) : Prop where
  equal : ∀ n, ∀ m ∈ query.equivalents n, env m = env n
  ranges : ∀ op a b, (query.typeOf a).isTracked = true → query.typeOf b = query.typeOf a →
    ∀ x y, query.Shows a x → query.Shows b y →
      judge (op.eval (env a) (env b)) (ValueRange.compare op (query.typeOf a) x y)
  number : ∀ op a c, (query.typeOf a).isTracked = true → ∀ x, query.Shows a x →
    judge (op.eval (env a) c) (ValueRange.compareWithBound op (query.typeOf a) x (.const c))
  undecided : ∀ truth, judge truth (pure none)
  right : ∀ truth, judge truth (pure (some truth))
  agreed : ∀ {truth} {names : List NameId} {compare : NameId → Assuming (Option Bool)},
    (∀ n ∈ names, judge truth (compare n)) →
      judge truth (names.foldl (fun agreement n => agreement.record (compare n))
        Agreement.start).result
  otherwise : ∀ {truth first second} (useEquiv : Bool), judge truth first → judge truth second →
    judge truth (first >>= fun answer =>
      if answer.isSome || !useEquiv then pure answer else second)

namespace Judgement

variable {judge : Bool → Assuming (Option Bool) → Prop} (h : Judgement query env judge)

include h

theorem firstDecided {decisions : List (Assuming (Option Bool))}
    (single : ∀ decided ∈ decisions, judge truth decided) :
    judge truth (Query.firstDecided decisions) := by
  induction decisions with
  | nil => exact h.undecided truth
  | cons first rest ih =>
      unfold Query.firstDecided
      split
      · exact single first (List.mem_cons_self ..)
      · exact ih fun decided hd => single decided (List.mem_cons_of_mem _ hd)

theorem compareEquivalents {a b : NameId} (tracked : (query.typeOf a).isTracked = true)
    (type : query.typeOf b = query.typeOf a) :
    judge (op.eval (env a) (env b)) (query.compareEquivalents op (query.typeOf a) a b) := by
  simp only [Query.compareEquivalents]
  split
  · next common =>
      obtain ⟨m, memberA, memberB⟩ := List.any_eq_true.mp common
      have valueA := h.equal a m memberA
      have valueB := h.equal b m (List.contains_iff_mem.mp memberB)
      rw [← valueA, ← valueB, CmpOp.eval_self]
      exact h.right _
  · refine h.firstDecided fun decided hd => ?_
    obtain ⟨x, hx, rfl⟩ := List.mem_map.mp hd
    exact h.agreed fun y hy => h.ranges op a b tracked type _ _ (.equal hx) (.equal hy)

theorem compareEquivalentsWithValue {a : NameId} (c : Int)
    (tracked : (query.typeOf a).isTracked = true) :
    judge (op.eval (env a) c) (query.compareEquivalentsWithValue op (query.typeOf a) a c) :=
  h.agreed fun _ hm => h.number op a c tracked _ (.equal hm)

theorem decideByRanges {lhs rhs : Operand} (tracked : ty.isTracked = true)
    (left : query.Typed ty lhs) (right : query.Typed ty rhs) :
    judge (op.eval (lhs.reading env) (rhs.reading env))
      (query.decideByRanges op ty lhs rhs) := by
  cases lhs with
  | name a =>
      cases left
      cases rhs with
      | name b => exact h.ranges op a b tracked right _ _ .own .own
      | const c => exact h.number op a c tracked _ .own
  | const c =>
      cases rhs with
      | name b =>
          cases right
          rw [← CmpOp.eval_swap]
          exact h.number op.swap b c tracked _ .own
      | const d => exact h.undecided _

theorem decideByEquivalents {lhs rhs : Operand} (tracked : ty.isTracked = true)
    (left : query.Typed ty lhs) (right : query.Typed ty rhs) :
    judge (op.eval (lhs.reading env) (rhs.reading env))
      (query.decideByEquivalents op ty lhs rhs) := by
  cases lhs with
  | name a =>
      cases left
      cases rhs with
      | name b => exact h.compareEquivalents tracked right
      | const c => exact h.compareEquivalentsWithValue c tracked
  | const c =>
      cases rhs with
      | name b =>
          cases right
          rw [← CmpOp.eval_swap]
          exact h.compareEquivalentsWithValue c tracked
      | const d => exact h.undecided _

theorem decideTyped {lhs rhs : Operand} {useEquiv : Bool} (left : query.Typed ty lhs)
    (right : query.Typed ty rhs) : judge (op.eval (lhs.reading env) (rhs.reading env))
      (query.decideTyped op ty lhs rhs useEquiv) := by
  unfold Query.decideTyped
  split
  · next tracked =>
      exact h.otherwise useEquiv (h.decideByRanges tracked left right)
        (h.decideByEquivalents tracked left right)
  · exact h.undecided _

theorem decideCondition {lhs rhs : Operand} {useEquiv : Bool} (left : query.Typed ty lhs)
    (right : query.Typed ty rhs) : judge (op.eval (lhs.reading env) (rhs.reading env))
      (query.decideCondition op lhs rhs useEquiv) := by
  cases lhs with
  | name a =>
      cases left
      exact h.decideTyped rfl right
  | const c =>
      cases rhs with
      | name b =>
          cases right
          exact h.decideTyped left rfl
      | const d => exact h.right _

end Judgement

/-- Names known to equal another have its type and its value, and so has the name itself. -/
theorem eq_or_mem_equiv {n m : NameId} (h : m ∈ query.equivalents n) :
    m = n ∨ m ∈ (query.rangeOf n).equiv := by
  simp only [equivalents] at h
  split at h
  · exact .inr h
  · exact List.mem_cons.mp h

theorem equal_of_mem_equivalents (equal : ∀ n, ∀ m ∈ (query.rangeOf n).equiv,
    query.typeOf m = query.typeOf n ∧ env m = env n) {n m : NameId}
    (h : m ∈ query.equivalents n) : query.typeOf m = query.typeOf n ∧ env m = env n := by
  rcases eq_or_mem_equiv h with rfl | known
  · exact ⟨rfl, rfl⟩
  · exact equal n m known

/-- For a comparison, a name of which nothing is known still equals itself. -/
theorem comparedRange_proper (hq : query.Proper) {n : NameId}
    (tracked : (query.typeOf n).isTracked = true) :
    (query.comparedRange n).Proper (query.typeOf n) := by
  simp only [comparedRange]
  split
  · exact .inside ⟨trivial, by simp [Bound.ofName]⟩ ⟨trivial, by simp [Bound.ofName]⟩
  · exact hq n tracked

section

variable (hq : query.Proper) (respects : query.Respects env)

include respects in
theorem comparedRange_holds {n : NameId} (tracked : (query.typeOf n).isTracked = true) :
    (query.comparedRange n).Holds env (query.typeOf n) (env n) := by
  simp only [comparedRange]
  split
  · have reading : (Bound.ofName n).reading env (query.typeOf n) = env n := Int.add_zero _
    exact ⟨Int.le_of_eq reading, Int.le_of_eq reading.symm⟩
  · exact respects.holds n tracked

include hq respects

/-- What is known about a name, or about one that equals it, tells about its value. -/
theorem Shows.holds {n : NameId} {vr : ValueRange} (h : query.Shows n vr)
    (tracked : (query.typeOf n).isTracked = true) :
    vr.Proper (query.typeOf n) ∧ vr.Holds env (query.typeOf n) (env n) := by
  cases h with
  | own => exact ⟨hq n tracked, respects.holds n tracked⟩
  | equal member =>
      obtain ⟨type, value⟩ := equal_of_mem_equivalents respects.equal member
      rw [← type] at tracked ⊢
      rw [← value]
      exact ⟨comparedRange_proper hq tracked, comparedRange_holds respects tracked⟩

theorem Respects.judgement : Judgement query env Assuming.Agrees where
  equal n m h := (equal_of_mem_equivalents respects.equal h).2
  ranges op a b tracked type x y showsA showsB := by
    obtain ⟨properA, holdsA⟩ := showsA.holds hq respects tracked
    obtain ⟨properB, holdsB⟩ := showsB.holds hq respects (type ▸ tracked)
    rw [type] at properB holdsB
    exact ValueRange.compare_agrees op properA properB holdsA holdsB
  number op a c tracked x shows := by
    obtain ⟨proper, holds⟩ := shows.holds hq respects tracked
    exact ValueRange.compareWithBound_agrees op proper holds rfl
  undecided truth := by rintro _ ⟨⟩
  right truth := by
    rintro _ ⟨⟩
    rfl
  agreed single := (foldl_record_agrees single Agreement.start_agrees).result
  otherwise useEquiv first second := by
    intro answer h
    simp only [Assuming.bind_value] at h
    split at h
    · exact first answer h
    · exact second answer h

theorem decideCondition_agrees {lhs rhs : Operand} {useEquiv : Bool} (left : query.Typed ty lhs)
    (right : query.Typed ty rhs) : (query.decideCondition op lhs rhs useEquiv).Agrees
      (op.eval (lhs.reading env) (rhs.reading env)) :=
  (respects.judgement hq).decideCondition left right

end

/-- Both truth values are among the truth values of the type. -/
theorem truthValues_holds (env : NameId → Int) (ty : ScalarType) (truth : Bool) :
    (truthValues ty).Holds env ty (ty.wrap (if truth then 1 else 0)) := by
  unfold truthValues
  split
  · trivial
  · next wide =>
      have one : ty.fits 1 = true := by
        have := ty.minValue_nonpos
        exact ScalarType.fits_iff.mpr ⟨by omega, ScalarType.one_le_maxValue wide⟩
      cases truth with
      | true =>
          simp only [if_true, ScalarType.wrap_of_fits one]
          exact ⟨Int.zero_le_ofNat 1, Int.le_refl 1⟩
      | false =>
          simp only [Bool.false_eq_true, if_false, ScalarType.wrap_of_fits ty.fits_zero]
          exact ⟨Int.le_refl 0, Int.zero_le_ofNat 1⟩

/-- A condition that is decided has the answer that the values of its operands give, whatever
    possible values the names have. The same holds of two ranges, and of a range and a bound. -/
theorem decided_eq_eval (op : CmpOp) (ty : ScalarType) (env : NameId → Int) :
    (∀ query : Query, query.Proper → query.Respects env → ∀ lhs rhs, query.Typed ty lhs →
      query.Typed ty rhs → ∀ useEquiv answer,
      (query.decideCondition op lhs rhs useEquiv).value = some answer →
        answer = op.eval (lhs.reading env) (rhs.reading env)) ∧
    (∀ a b : ValueRange, a.Proper ty → b.Proper ty → ∀ x y, a.Holds env ty x → b.Holds env ty y →
      ∀ answer, (ValueRange.compare op ty a b).value = some answer → answer = op.eval x y) ∧
    (∀ (a : ValueRange) (bound : Bound), a.Proper ty → ∀ x y, a.Holds env ty x →
      bound.Denotes env ty y → ∀ answer,
      (ValueRange.compareWithBound op ty a bound).value = some answer → answer = op.eval x y) := by
  refine ⟨?_, ?_, ?_⟩
  · intro query proper respects lhs rhs left right useEquiv
    exact decideCondition_agrees proper respects left right
  · intro a b properA properB x y holdsA holdsB
    exact ValueRange.compare_agrees op properA properB holdsA holdsB
  · intro a bound proper x y holds denotes
    exact ValueRange.compareWithBound_agrees op proper holds denotes

/-- The range of `_1` does not tell that it is below `_0`. That of `_2`, which has the same value,
    does: it ends at `_3 + 1`, and the range of `_0` starts at `_3 + 2`. -/
def apart : Query where
  rangeOf
    | 0 => .range (.symbolic 3 2) .posInf
    | 1 => ⟨.inside .negInf (.const 100), .ofList [2]⟩
    | 2 => .range .negInf (.symbolic 3 1)
    | _ => .varying
  typeOf _ := .int ⟨8, eight_bits⟩ .signed

def apartValues : NameId → Int
  | 0 => 7
  | 1 | 2 => 2
  | 3 => 4
  | _ => 0

theorem decided_eq_eval_apart :
    apart.Proper ∧ apart.Respects apartValues ∧
    (apart.decideCondition .lt (.name 1) (.name 0) false).value = none ∧
    (apart.decideCondition .lt (.name 1) (.name 0) true).value = some true ∧
    true = CmpOp.lt.eval 2 7 := by
  have proper : apart.Proper := by
    intro n _
    match n with
    | 0 => exact .inside ⟨trivial, by decide⟩ ⟨trivial, by decide⟩
    | 1 => exact .inside ⟨trivial, by decide⟩ (Bound.isUpper_const.mpr (by decide))
    | 2 => exact .inside ⟨trivial, by decide⟩ ⟨trivial, by decide⟩
    | n + 3 => exact .varying
  have respects : apart.Respects apartValues := by
    refine ⟨fun n _ => ?_, fun n _ => ?_, fun n m hm => ⟨rfl, ?_⟩⟩
    · match n with
      | 0 | 1 | 2 | 3 => decide
      | n + 4 => rfl
    · match n with
      | 0 | 1 | 2 => exact ⟨by decide, by decide⟩
      | n + 3 => trivial
    · match n with
      | 0 | 2 => cases hm
      | 1 =>
          cases List.mem_singleton.mp hm
          rfl
      | n + 3 => cases hm
  refine ⟨proper, respects, by decide, by decide, ?_⟩
  exact (decided_eq_eval .lt _ apartValues).1 apart proper respects (.name 1) (.name 0) rfl rfl true
    true (by decide)

end Query

end RangeFlow
