import RangeFlow.Proofs.Facts
import RangeFlow.Proofs.Refinement
import RangeFlow.Proofs.UnaryResults

/-! # Asserted ranges

An assertion only removes values that its predicate excludes: what a predicate implies holds of
every value that satisfies it, and so does its intersection with what was known before.
-/

namespace RangeFlow

namespace ValueRange

variable {ty : ScalarType} {a b : ValueRange}

/-- Names equivalent in an intersection were equivalent in one of the ranges. -/
theorem mem_intersect_equiv {n : NameId} (h : n ∈ (a.intersect ty b).equiv) :
    n ∈ a.equiv ∨ n ∈ b.equiv := by
  unfold intersect at h
  split at h
  · cases h
  · cases h
  · exact .inl h
  · exact .inr h
  · dsimp only at h
    split at h
    · exact .inl h
    · unfold withEquiv at h
      split at h
      · exact IdSet.mem_union.mp h
      · cases h

end ValueRange

namespace Query

variable {query : Query} {env : NameId → Int} {ty : ScalarType} {v l : Int}

/-- What is known admits the values of the names: each is a value of its type and of its range, and
    equals the value of the names known to be equal. -/
structure Admits (query : Query) (env : NameId → Int) : Prop where
  fits : ∀ n, (query.typeOf n).isTracked = true → (query.typeOf n).fits (env n) = true
  holds : ∀ n, (query.typeOf n).isTracked = true →
    (query.rangeOf n).Holds env (query.typeOf n) (env n)
  equal : ∀ n, ∀ m ∈ (query.rangeOf n).equiv, env m = env n

theorem rangeOrVarying_holds {min max : Bound} (low : min.reading env ty ≤ v)
    (high : v ≤ max.reading env ty) : (rangeOrVarying ty min max).Holds env ty v := by
  unfold rangeOrVarying
  split
  · trivial
  · split
    · trivial
    · exact Extent.holds_canonical_inside ⟨low, high⟩

theorem le_stepBound {bound : Bound} (h : bound.IsUpper ty) (below : v < bound.reading env ty) :
    v ≤ (stepBound ty (-1) bound).reading env ty := by
  cases bound with
  | negInf => exact absurd rfl h.2
  | const c | symbolic n offset | posInf =>
      simp only [stepBound, Bound.reading] at below ⊢
      omega

theorem stepBound_le {bound : Bound} (h : bound.IsLower ty) (above : bound.reading env ty < v) :
    (stepBound ty 1 bound).reading env ty ≤ v := by
  cases bound with
  | posInf => exact absurd rfl h.2
  | const c | symbolic n offset | negInf =>
      simp only [stepBound, Bound.reading] at above ⊢
      omega

/-- The values below, or at most, a limit that an upper end bounds. -/
theorem atMost_holds {op : CmpOp} {max : Bound} (ordering : op = .lt ∨ op = .le)
    (upper : max.IsUpper ty) (hv : ty.fits v = true) (h : op.eval v l = true)
    (limit : l ≤ max.reading env ty) : (atMost ty (op == .lt) max).Holds env ty v := by
  have least := (ScalarType.fits_iff.mp hv).1
  rcases ordering with rfl | rfl
  · have less : v < l := of_decide_eq_true h
    simp only [atMost, beq_self_eq_true, if_true]
    split
    · trivial
    · exact rangeOrVarying_holds least (le_stepBound upper (Int.lt_of_lt_of_le less limit))
  · have atMost : v ≤ l := of_decide_eq_true h
    exact rangeOrVarying_holds least (Int.le_trans atMost limit)

/-- The values above, or at least, a limit that a lower end bounds. -/
theorem atLeast_holds {op : CmpOp} {min : Bound} (ordering : op = .gt ∨ op = .ge)
    (lower : min.IsLower ty) (hv : ty.fits v = true) (h : op.eval v l = true)
    (limit : min.reading env ty ≤ l) : (atLeast ty (op == .gt) min).Holds env ty v := by
  have greatest := (ScalarType.fits_iff.mp hv).2
  rcases ordering with rfl | rfl
  · have greater : l < v := of_decide_eq_true h
    simp only [atLeast, beq_self_eq_true, if_true]
    split
    · trivial
    · exact rangeOrVarying_holds (stepBound_le lower (Int.lt_of_le_of_lt limit greater)) greatest
  · have atLeast : l ≤ v := of_decide_eq_true h
    exact rangeOrVarying_holds (Int.le_trans limit atLeast) greatest

theorem impliedByRange_holds {op : CmpOp} {limit : ValueRange} (proper : limit.Proper ty)
    (bounded : limit.isBounded = true) (hv : ty.fits v = true) (inLimit : limit.Holds env ty l)
    (h : op.eval v l = true) : (impliedByRange op ty limit).Holds env ty v := by
  obtain ⟨extent, equiv⟩ := limit
  cases extent with
  | undefined | varying => cases bounded
  | outside lo hi =>
      cases op with
      | eq =>
          obtain rfl : v = l := of_decide_eq_true h
          exact Extent.Proper.holds_canonical proper hv inLimit
      | ne | lt | le | gt | ge => trivial
  | inside lo hi =>
      have low := Extent.Proper.lower proper
      have high := Extent.Proper.upper proper
      obtain ⟨above, below⟩ := inLimit
      cases op with
      | eq =>
          obtain rfl : v = l := of_decide_eq_true h
          exact Extent.holds_canonical_inside ⟨above, below⟩
      | ne =>
          simp only [impliedByRange]
          split
          · next single =>
              have same : lo = hi := by
                simpa [ValueRange.isRange, Extent.isRange, ValueRange.min, ValueRange.max,
                  Extent.min, Extent.max] using single
              subst same
              have differ : v ≠ l := of_decide_eq_true h
              exact (Extent.outside_self_proper low high).holds_canonical hv
                fun within => differ (by omega)
          · trivial
      | lt => exact atMost_holds (.inl rfl) high hv h below
      | le => exact atMost_holds (.inr rfl) high hv h below
      | gt => exact atLeast_holds (.inl rfl) low hv h above
      | ge => exact atLeast_holds (.inr rfl) low hv h above

theorem impliedByBound_holds {op : CmpOp} {n : NameId} (hv : ty.fits v = true)
    (h : op.eval v (env n) = true) : (impliedByBound op ty (.ofName n)).Holds env ty v := by
  have reading : (Bound.ofName n).reading env ty = env n := Int.add_zero _
  have low : (Bound.ofName n).IsLower ty := ⟨trivial, nofun⟩
  have high : (Bound.ofName n).IsUpper ty := ⟨trivial, nofun⟩
  have above := Int.le_of_eq reading
  have below := Int.le_of_eq reading.symm
  cases op with
  | eq =>
      obtain rfl : v = env n := of_decide_eq_true h
      exact ⟨above, below⟩
  | ne =>
      have differ : v ≠ env n := of_decide_eq_true h
      exact fun within => differ (by omega)
  | lt => exact atMost_holds (.inl rfl) high hv h below
  | le => exact atMost_holds (.inr rfl) high hv h below
  | gt => exact atLeast_holds (.inl rfl) low hv h above
  | ge => exact atLeast_holds (.inr rfl) low hv h above

/-- A predicate implies nothing about equivalent names. -/
theorem implied_equiv (query : Query) (ty : ScalarType) (predicate : Predicate) :
    (query.implied ty predicate).equiv = ∅ := by
  simp only [implied, impliedByRange, impliedByBound, atMost, atLeast, rangeOrVarying]
  repeat' split
  all_goals rfl

theorem implied_holds {predicate : Predicate} (hq : query.Proper) (admits : query.Admits env)
    (tracked : ty.isTracked = true) (typed : query.PredicateTyped ty predicate)
    (hv : ty.fits v = true) (h : predicate.Holds (fun n => some (env n)) v) :
    (query.implied ty predicate).Holds env ty v := by
  cases predicate with
  | within low high negated =>
      cases negated with
      | true =>
          exact Extent.holds_canonical_apart typed.1 typed.2 hv fun within => by
            cases h.mp within
      | false => exact Extent.holds_canonical_between typed.1 typed.2 hv (h.mpr rfl)
  | compare op limit =>
      obtain ⟨l, value, h⟩ := h
      cases limit with
      | const c =>
          cases value
          exact impliedByRange_holds (ValueRange.singleton_proper typed) rfl hv
            ⟨Int.le_refl _, Int.le_refl _⟩ h
      | name n =>
          cases value
          obtain rfl : query.typeOf n = ty := typed
          simp only [implied, limitRange?]
          split
          · next vr known =>
              split at known
              · next bounded =>
                  cases known
                  exact impliedByRange_holds (hq n tracked) (Bool.and_eq_true_iff.mp bounded).1 hv
                    (admits.holds n tracked) h
              · cases known
          · exact impliedByBound_holds hv h

/-- Names asserted to equal a name that satisfies the predicate have its value. -/
theorem eq_of_mem_assertedEquals {predicate : Predicate} {name m : NameId}
    (admits : query.Admits env) (h : predicate.Holds (fun n => some (env n)) (env name))
    (hm : m ∈ query.assertedEquals name predicate) : env m = env name := by
  unfold assertedEquals at hm
  split at hm
  · next limit =>
      obtain ⟨l, value, h⟩ := h
      cases value
      have same : env name = env limit := of_decide_eq_true h
      simp only [IdSet.mem_union, IdSet.mem_insert, IdSet.mem_singleton] at hm
      rcases hm with (rfl | rfl) | known
      · exact same.symm
      · rfl
      · exact (admits.equal limit m known).trans same.symm
  · rw [IdSet.mem_singleton.mp hm]

theorem refined_holds {name : NameId} {predicate : Predicate} (hq : query.Proper)
    (admits : query.Admits env) (own : query.typeOf name = ty)
    (typed : query.PredicateTyped ty predicate) (tracked : ty.isTracked = true)
    (h : predicate.Holds (fun n => some (env n)) (env name)) :
    ((query.rangeOf name).intersect ty ((query.implied ty predicate).withEquiv
      (query.assertedEquals name predicate))).Holds env ty (env name) := by
  subst own
  have fits := admits.fits name tracked
  refine ValueRange.intersect_holds (hq name tracked) ?_ fits (admits.holds name tracked) ?_
  · rw [ValueRange.Proper, ValueRange.withEquiv_extent]
    exact implied_proper hq tracked typed
  · rw [ValueRange.Holds, ValueRange.withEquiv_extent]
    exact implied_holds hq admits tracked typed fits h

theorem eq_of_mem_refined {name m : NameId} {predicate : Predicate} (admits : query.Admits env)
    (h : predicate.Holds (fun n => some (env n)) (env name))
    (hm : m ∈ ((query.rangeOf name).intersect ty ((query.implied ty predicate).withEquiv
      (query.assertedEquals name predicate))).equiv) : env m = env name := by
  rcases ValueRange.mem_intersect_equiv hm with known | asserted
  · exact admits.equal name m known
  · unfold ValueRange.withEquiv at asserted
    split at asserted
    · exact eq_of_mem_assertedEquals admits h asserted
    · rw [implied_equiv] at asserted
      cases asserted

/-- An assertion gives up, or refines the range of its name. -/
theorem assertResult_cases (query : Query) (name : NameId) (predicate : Predicate)
    (ty : ScalarType) : query.assertResult name predicate ty = .varying ∨ ty.isTracked = true ∧
      query.assertResult name predicate ty = (query.rangeOf name).intersect ty
        ((query.implied ty predicate).withEquiv (query.assertedEquals name predicate)) := by
  unfold assertResult
  split
  · exact .inl rfl
  · next followed =>
      extract_lets ordering
      split
      · exact .inl rfl
      · exact .inr ⟨by simpa using followed, rfl⟩

/-- An assertion only removes impossible values: where the value of a name satisfies a predicate,
    it lies in the asserted range, and it equals the names that the range lists as equivalent. -/
theorem assertResult_holds {name : NameId} {predicate : Predicate} (hq : query.Proper)
    (admits : query.Admits env) (own : query.typeOf name = ty)
    (typed : query.PredicateTyped ty predicate)
    (h : predicate.Holds (fun n => some (env n)) (env name)) :
    (query.assertResult name predicate ty).Holds env ty (env name) ∧
      ∀ m ∈ (query.assertResult name predicate ty).equiv, env m = env name := by
  rcases query.assertResult_cases name predicate ty with unknown | ⟨tracked, refined⟩
  · rw [unknown]
    exact ⟨trivial, nofun⟩
  · rw [refined]
    exact ⟨refined_holds hq admits own typed tracked h, fun m hm => eq_of_mem_refined admits h hm⟩

/-- Two pairs of names that are known to be equal, with an end that has overflowed, an interval that
    is missing, and ends that mention a name. -/
def linked : Query where
  rangeOf
    | 0 => ⟨.outside (.const 3) (.const 9), .singleton 2⟩
    | 1 => ⟨.inside .negInf (.const 7), .singleton 3⟩
    | 3 => .range (.symbolic 2 (-1)) (.symbolic 2 1)
    | _ => .varying
  typeOf _ := .int ⟨8, eight_bits⟩ .signed

/-- All linked names have one value. -/
def linkedValues : NameId → Int
  | 0 | 1 | 2 | 3 => -5
  | _ => 1

theorem assertResult_holds_linked :
    linked.Proper ∧ linked.Admits linkedValues ∧
    linked.assertResult 0 (.compare .eq (.name 1)) (.int ⟨8, eight_bits⟩ .signed) =
      ⟨.inside .negInf (.const 2), .ofList [0, 1, 2, 3]⟩ ∧
    (linked.assertResult 0 (.compare .eq (.name 1)) (.int ⟨8, eight_bits⟩ .signed)).Holds
      linkedValues (.int ⟨8, eight_bits⟩ .signed) (-5) ∧
    ∀ m ∈ (linked.assertResult 0 (.compare .eq (.name 1))
      (.int ⟨8, eight_bits⟩ .signed)).equiv, linkedValues m = -5 := by
  have proper : linked.Proper := by
    intro n _
    match n with
    | 0 => exact .outside (by decide) (by decide) (by decide)
    | 1 => exact .inside ⟨trivial, nofun⟩ (Bound.isUpper_const.mpr (by decide))
    | 3 => exact .inside ⟨trivial, nofun⟩ ⟨trivial, nofun⟩
    | 2 => exact .varying
    | n + 4 => exact .varying
  have admits : linked.Admits linkedValues := by
    refine ⟨fun n _ => ?_, fun n _ => ?_, fun n m hm => ?_⟩
    · match n with
      | 0 | 1 | 2 | 3 => decide
      | n + 4 => rfl
    · match n with
      | 0 => exact fun within => absurd within.1 (by decide)
      | 1 | 3 => exact ⟨by decide, by decide⟩
      | 2 => trivial
      | n + 4 => trivial
    · match n with
      | 0 | 1 =>
          cases List.mem_singleton.mp hm
          rfl
      | 2 | 3 => cases hm
      | n + 4 => cases hm
  have typed : linked.PredicateTyped (.int ⟨8, eight_bits⟩ .signed) (.compare .eq (.name 1)) := rfl
  exact ⟨proper, admits, by decide, assertResult_holds proper admits rfl typed ⟨-5, rfl, rfl⟩⟩

end Query

end RangeFlow
