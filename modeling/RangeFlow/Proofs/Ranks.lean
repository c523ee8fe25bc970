import RangeFlow.Proofs.CanonicalForms
import RangeFlow.Proofs.Widening

/-! # Widening goes one way

The ends of a range have a rank: ends of several values have the lowest, then a single value or
an end of the type, then an end pushed there, and to know nothing has the highest. Widening keeps
the ends as they are or raises their rank, so it changes them four times at most. This needs
complements that do not reach an end of the type: the complement of the values up to some value
would widen to the complement of the least one, which has no higher rank.
-/

namespace RangeFlow

namespace Bound

theorem isMin_negativeExtreme (ty : ScalarType) : (negativeExtreme ty).isMin ty = true := by
  unfold negativeExtreme
  split <;> simp [isMin, concrete?]

theorem isMax_positiveExtreme (ty : ScalarType) : (positiveExtreme ty).isMax ty = true := by
  unfold positiveExtreme
  split <;> simp [isMax, concrete?]

theorem compare_ne_equal (ty : ScalarType) (a b : Bound) :
    (compare ty a b != .equal) = decide (a ≠ b) := by
  by_cases same : a = b
  · simp [same]
  · have differs : compare ty a b ≠ .equal := fun equal => same (eq_of_compare_equal equal)
    simp [same, differs]

theorem ne_of_not_isMin {ty : ScalarType} {b : Bound} (h : b.isMin ty = false) :
    b ≠ negativeExtreme ty ∧ b ≠ const ty.minValue := by
  refine ⟨?_, ?_⟩
  · rintro rfl
    rw [isMin_negativeExtreme] at h
    cases h
  · rintro rfl
    rw [Extent.isMin_const.mpr rfl] at h
    cases h

theorem ne_of_not_isMax {ty : ScalarType} {b : Bound} (h : b.isMax ty = false) :
    b ≠ positiveExtreme ty ∧ b ≠ const ty.maxValue := by
  refine ⟨?_, ?_⟩
  · rintro rfl
    rw [isMax_positiveExtreme] at h
    cases h
  · rintro rfl
    rw [Extent.isMax_const.mpr rfl] at h
    cases h

end Bound

namespace Extent

variable {ty : ScalarType} {e : Extent} {lo hi b : Bound}

/-- The interval between the ends, whether its values are the ones that are held or the ones that
    are left out. -/
def interval : Extent → Extent
  | outside lo hi => inside lo hi
  | e => e

/-- How far the ends are from giving nothing to know: they have several values between them, or a
    single one, or one of them is an end of the type, or has been pushed there. Zero alone ranks
    lower where it is the greatest value, since its complement is then the interval below it. -/
def rank (ty : ScalarType) (e : Extent) : Nat :=
  match e.interval with
  | undefined => 0
  | varying => 5
  | _ =>
      if e.min = .const 0 ∧ e.max = .const 0 ∧ ty.maxValue = 0 then 2
      else if e.min = .negativeExtreme ty ∨ e.max = .positiveExtreme ty then 4
      else if e.min = e.max ∨ e.min = .const ty.minValue ∨ e.max = .const ty.maxValue then 3
      else 1

theorem rank_undefined (ty : ScalarType) : undefined.rank ty = 0 := rfl

theorem rank_le (ty : ScalarType) (e : Extent) : e.rank ty ≤ 5 := by
  unfold rank
  grind

theorem rank_pos (h : e ≠ undefined) : 0 < e.rank ty := by
  cases e with
  | undefined => exact absurd rfl h
  | inside | outside | varying =>
      simp only [rank, interval]
      grind

theorem rank_lt (h : e ≠ varying) : e.rank ty < 5 := by
  cases e with
  | varying => exact absurd rfl h
  | undefined | inside | outside =>
      simp only [rank, interval]
      grind

theorem rank_congr {e' : Extent} (h : e.interval = e'.interval) : e.rank ty = e'.rank ty := by
  cases e <;> cases e' <;> cases h <;> rfl

/-- An extent with a single value between its ends, or with an end of the type, is past the first
    rank. -/
theorem one_lt_rank (bounded : e.isBounded = true)
    (h : e.min = e.max ∨ e.min = .const ty.minValue ∨ e.max = .const ty.maxValue) :
    1 < e.rank ty := by
  cases e with
  | undefined | varying => cases bounded
  | inside | outside =>
      simp only [rank, interval]
      grind

theorem isSymbolic_point (b : Bound) : (outside b b).isSymbolic = b.isSymbolic := by
  simp [isSymbolic, isBounded, min, max]

theorem canonical_point (plain : b.isSymbolic = false) :
    (outside b b).canonical ty = ((outside b b).preferRange ty).dropFull ty :=
  canonical_of_le (fun _ => 0) rfl ((isSymbolic_point b).trans plain) (Int.le_refl _)

/-- A single bound is left out by a complement or by the interval below or above it, and all of them
    are past the first rank. -/
theorem one_lt_rank_canonical (ty : ScalarType) (b : Bound) :
    1 < ((outside b b).canonical ty).rank ty := by
  have single : 1 < (outside b b).rank ty := one_lt_rank rfl (.inl rfl)
  have unknown : 1 < varying.rank ty := by simp [rank, interval]
  have kept : ∀ lo hi : Bound, lo = .const ty.minValue ∨ hi = .const ty.maxValue →
      1 < ((inside lo hi).dropFull ty).rank ty := by
    intro lo hi isEnd
    rcases dropFull_eq ty (inside lo hi) with full | same
    · rwa [full]
    · rw [same]
      exact one_lt_rank rfl (.inr isEnd)
  cases plain : b.isSymbolic with
  | true => rwa [canonical_of_isSymbolic ((isSymbolic_point b).trans plain)]
  | false =>
      rw [canonical_point plain]
      unfold preferRange
      dsimp only
      split
      · exact unknown
      · split
        · split
          · exact kept _ _ (.inr rfl)
          · exact unknown
        · split
          · split
            · exact kept _ _ (.inl rfl)
            · exact unknown
          · exact single

/-- If a complement is not written as an interval, it has no end of the type as an end, unless it
    leaves out the values of an unsigned type up to zero. -/
theorem ends_of_preferRange (h : (outside lo hi).preferRange ty = outside lo hi) :
    hi.isMax ty = false ∧ (lo.isMin ty = false ∨ ty.signed = false ∧ hi = .const 0) := by
  simp only [preferRange] at h
  split at h
  · cases h
  · split at h
    · split at h <;> cases h
    · next notMin =>
        split at h
        · split at h <;> cases h
        · next notMax =>
            refine ⟨Bool.eq_false_iff.mpr notMax, ?_⟩
            simpa [Bound.isZero, or_iff_not_imp_left] using notMin

/-- A complement of several values has no end of the type as its end. -/
theorem Trimmed.rank_several (h : (outside lo hi).Trimmed ty) (several : lo ≠ hi) :
    (outside lo hi).rank ty = 1 := by
  have inner : (outside lo hi).preferRange ty = outside lo hi := by
    rcases h.inner with named | zero | inner
    · exact absurd (h.lone named rfl) several
    · cases zero
      exact absurd rfl several
    · exact inner
  obtain ⟨notMax, notMin⟩ := ends_of_preferRange inner
  have closed := Bound.ne_of_not_isMax notMax
  have open_ : lo ≠ .negativeExtreme ty ∧ lo ≠ .const ty.minValue := by
    rcases notMin with notMin | ⟨unsigned, rfl⟩
    · exact Bound.ne_of_not_isMin notMin
    · -- the least value is zero, which is the other end
      have least : Bound.negativeExtreme ty = .const 0 := by
        simp [Bound.negativeExtreme, ScalarType.overflowUndefined, unsigned,
          ScalarType.minValue_of_not_signed]
      rw [least, ScalarType.minValue_of_not_signed unsigned]
      exact ⟨several, several⟩
  have nonzero : ¬ (lo = .const 0 ∧ hi = .const 0 ∧ ty.maxValue = 0) := by
    rintro ⟨rfl, rfl, -⟩
    exact several rfl
  simp [rank, interval, min, max, nonzero, open_, closed, several]

/-- The complement of zero is kept where zero is the least value. -/
theorem preferRange_zero (inner : ty.maxValue ≠ 0) :
    (outside (.const 0) (.const 0)).preferRange ty = outside (.const 0) (.const 0) := by
  have notMax : (Bound.const 0).isMax ty = false :=
    Bool.eq_false_iff.mpr fun greatest => inner (isMax_const.mp greatest).symm
  have kept : ((Bound.const 0).isMin ty && !(!ty.signed && (Bound.const 0).isZero)) = false := by
    cases signed : ty.signed with
    | false => simp [Bound.isZero]
    | true =>
        have least := ScalarType.minValue_of_signed signed
        have nonneg := ty.maxValue_nonneg
        simp [isMin_const_of_lt (show ty.minValue < 0 by omega)]
  simp only [preferRange, notMax, kept, Bool.and_false, if_false, Bool.false_eq_true]

/-- A complement that leaves out a single bound is in normal form, unless the bound is zero and the
    greatest value. -/
theorem Trimmed.canonical_single (h : (outside b b).Trimmed ty) :
    (outside b b).canonical ty = outside b b ∨ b = .const 0 ∧ ty.maxValue = 0 := by
  cases plain : b.isSymbolic with
  | true => exact .inl (canonical_of_isSymbolic ((isSymbolic_point b).trans plain))
  | false =>
      rw [canonical_point plain]
      rcases h.inner with named | zero | inner
      · rw [isSymbolic_point, plain] at named
        cases named
      · cases zero
        by_cases greatest : ty.maxValue = 0
        · exact .inr ⟨rfl, greatest⟩
        · rw [preferRange_zero greatest]
          exact .inl rfl
      · rw [inner]
        exact .inl rfl

/-- Where zero is the greatest value, its complement is the interval below it, which is further. -/
theorem rank_canonical_zero (greatest : ty.maxValue = 0) :
    (outside (.const 0) (.const 0)).rank ty <
      ((outside (.const 0) (.const 0)).canonical ty).rank ty := by
  have least : ty.minValue < 0 := greatest ▸ ty.minValue_lt_maxValue
  have written : (outside (.const 0) (.const 0)).canonical ty =
      inside (.const ty.minValue) (.const (-1)) := by
    rw [canonical_point rfl]
    simp [preferRange, isMin_const_of_lt least, Bound.concrete?, dropFull, Bound.isMax, greatest]
  rw [written]
  simp [rank, interval, min, max, greatest]
  grind

/-- To leave out just one end of a complement changes nothing or goes further. -/
theorem Trimmed.rank_end (h : (outside lo hi).Trimmed ty) (isEnd : b = lo ∨ b = hi) :
    ((outside b b).canonical ty).interval = (outside lo hi).interval ∨
      (outside lo hi).rank ty < ((outside b b).canonical ty).rank ty := by
  by_cases several : lo = hi
  · obtain rfl : b = lo := isEnd.elim id fun same => same.trans several.symm
    subst several
    rcases h.canonical_single with kept | ⟨rfl, greatest⟩
    · exact .inl (congrArg interval kept)
    · exact .inr (rank_canonical_zero greatest)
  · right
    rw [h.rank_several several]
    exact one_lt_rank_canonical ty b

theorem rank_lt_of_inner (low : lo ≠ .negativeExtreme ty) (high : hi ≠ .positiveExtreme ty) :
    (inside lo hi).rank ty < 4 := by
  simp only [rank, interval, min, max, low, high, or_self, if_false]
  grind

/-- To push the upper end to the end of the type goes further, if the lower end is inside. -/
theorem rank_pushed_max (inner : lo.isMin ty = false) (moves : hi ≠ .positiveExtreme ty) :
    (inside lo hi).rank ty < (inside lo (.positiveExtreme ty)).rank ty := by
  have low := Bound.ne_of_not_isMin inner
  by_cases zero : lo = .const 0 ∧ Bound.positiveExtreme ty = .const 0 ∧ ty.maxValue = 0
  · -- the interval becomes zero alone, and it had neither end before
    obtain ⟨rfl, last, greatest⟩ := zero
    rw [last] at moves
    have few : (inside (.const 0) hi).rank ty = 1 := by
      simp [rank, interval, min, max, low, moves, moves.symm, last, greatest]
    have zeroAlone : (inside (.const 0) (.positiveExtreme ty)).rank ty = 2 := by
      simp [rank, interval, min, max, last, greatest]
    omega
  · have pushed : (inside lo (.positiveExtreme ty)).rank ty = 4 := by
      simp only [rank, interval, min, max, zero, or_true, if_true, if_false]
    rw [pushed]
    exact rank_lt_of_inner low.1 moves

/-- To push the lower end to the end of the type goes further, if the upper end is inside. -/
theorem rank_pushed_min (inner : hi.isMax ty = false) (moves : lo ≠ .negativeExtreme ty) :
    (inside lo hi).rank ty < (inside (.negativeExtreme ty) hi).rank ty := by
  have high := Bound.ne_of_not_isMax inner
  have nonzero : ¬ (Bound.negativeExtreme ty = .const 0 ∧ hi = .const 0 ∧ ty.maxValue = 0) := by
    rintro ⟨-, rfl, greatest⟩
    exact high.2 (congrArg Bound.const greatest.symm)
  have pushed : (inside (.negativeExtreme ty) hi).rank ty = 4 := by
    simp only [rank, interval, min, max, nonzero, true_or, if_true, if_false]
  rw [pushed]
  exact rank_lt_of_inner moves high.1

/-- An end that differs is pushed to the end of the type. Unless both are pushed there, the interval
    is the same or has gone further. -/
theorem rank_pushed {lo' hi' : Bound}
    (partial_ : ¬ ((if lo = lo' then lo else Bound.negativeExtreme ty).isMin ty = true ∧
      (if hi = hi' then hi else Bound.positiveExtreme ty).isMax ty = true)) :
    inside (if lo = lo' then lo else .negativeExtreme ty)
        (if hi = hi' then hi else .positiveExtreme ty) = inside lo hi ∨
      (inside lo hi).rank ty < (inside (if lo = lo' then lo else .negativeExtreme ty)
        (if hi = hi' then hi else .positiveExtreme ty)).rank ty := by
  have least := Bound.isMin_negativeExtreme ty
  have greatest := Bound.isMax_positiveExtreme ty
  by_cases sameLo : lo = lo'
  · by_cases sameHi : hi = hi'
    · left
      rw [if_pos sameLo, if_pos sameHi]
    · rw [if_pos sameLo, if_neg sameHi] at partial_ ⊢
      by_cases already : hi = .positiveExtreme ty
      · left
        rw [already]
      · exact .inr (rank_pushed_max (by simpa [greatest] using partial_) already)
  · by_cases sameHi : hi = hi'
    · rw [if_neg sameLo, if_pos sameHi] at partial_ ⊢
      by_cases already : lo = .negativeExtreme ty
      · left
        rw [already]
      · exact .inr (rank_pushed_min (by simpa [least] using partial_) already)
    · rw [if_neg sameLo, if_neg sameHi] at partial_
      exact absurd ⟨least, greatest⟩ partial_

end Extent

theorem ValueRange.widenAnti?_eq_some {ty : ScalarType} {new wider : ValueRange}
    {minMoved maxMoved : Bool} (h : new.widenAnti? ty minMoved maxMoved = some wider) :
    ∃ b, (minMoved = true ∧ maxMoved = false ∧ b = new.max ∨
      minMoved = false ∧ maxMoved = true ∧ b = new.min) ∧
      wider.extent = (Extent.outside b b).canonical ty := by
  have keep : ∀ b, (if (canonical ty (.outside b b)).isVarying then none
      else some ((canonical ty (.outside b b)).withEquiv new.equiv)) = some wider →
      wider.extent = (Extent.outside b b).canonical ty := by
    intro b kept
    split at kept
    · cases kept
    · cases kept
      exact withEquiv_extent _ _
  cases minMoved <;> cases maxMoved
  · cases h
  · exact ⟨new.min, .inr ⟨rfl, rfl, rfl⟩, keep _ h⟩
  · exact ⟨new.max, .inl ⟨rfl, rfl, rfl⟩, keep _ h⟩
  · cases h

namespace Engine

variable {en : Engine} {s s' : EngineState} {block : BlockId}

/-- Without evolutions, widening gives the new range if no end has moved; else the complement of the
    end that stayed, or the interval with the ends that have moved pushed outwards. -/
theorem widen?_cases (noEvolution : en.config.useEvolution = false) {dest : NameId}
    {ty : ScalarType} {old new wider : ValueRange}
    (hw : en.widen? s block dest ty old new = some wider) :
    (old.min = new.min ∧ old.max = new.max ∧ wider = new) ∨
    (old.isAnti = true ∧ new.isAnti = true ∧ ¬ (old.min = new.min ∧ old.max = new.max) ∧
      ∃ b, (b = old.min ∧ b = new.min ∨ b = old.max ∧ b = new.max) ∧
        wider.extent = (Extent.outside b b).canonical ty) ∨
    (old.isRange = true ∧ new.isRange = true ∧ spansType ty wider = false ∧
      wider.extent = .inside (if old.min = new.min then old.min else .negativeExtreme ty)
        (if old.max = new.max then old.max else .positiveExtreme ty)) := by
  have same : ∀ vr, en.narrow s block dest ty vr = vr := by
    intro vr
    simp [narrow, noEvolution]
  have overflow : (ty.overflowUndefined && en.mayOverflow block dest) = ty.overflowUndefined := by
    simp [mayOverflow, noEvolution]
  unfold widen? at hw
  simp only [Bound.compare_ne_equal, same, overflow] at hw
  split at hw
  · cases hw
  · split at hw
    · next unmoved =>
        simp only [Bool.and_eq_true, Bool.not_eq_true', decide_eq_false_iff_not,
          Decidable.not_not] at unmoved
        exact .inl ⟨unmoved.1, unmoved.2, (Option.some.inj hw).symm⟩
    · next moved =>
        simp only [Bool.and_eq_true, Bool.not_eq_true', decide_eq_false_iff_not,
          Decidable.not_not] at moved
        split at hw
        · next both =>
            simp only [Bool.and_eq_true] at both
            obtain ⟨b, which, extent⟩ := ValueRange.widenAnti?_eq_some hw
            simp only [decide_eq_true_eq, decide_eq_false_iff_not, Decidable.not_not] at which
            refine .inr (.inl ⟨both.1.1, both.1.2, moved, b, ?_, extent⟩)
            rcases which with ⟨-, stayed, rfl⟩ | ⟨stayed, -, rfl⟩
            · exact .inr ⟨stayed.symm, rfl⟩
            · exact .inl ⟨stayed.symm, rfl⟩
        · split at hw
          · cases hw
          · next ranges =>
              simp only [Bool.or_eq_true, Bool.not_eq_true', not_or, Bool.not_eq_false] at ranges
              split at hw
              · cases hw
              · next spans =>
                  simp only [Bool.or_eq_true, not_or, Bool.not_eq_true] at spans
                  cases hw
                  refine .inr (.inr ⟨ranges.1.1, ranges.1.2, spans.1, ?_⟩)
                  simp only [ValueRange.pushEnds, ValueRange.withEquiv_extent, ValueRange.range,
                    ValueRange.ofExtent, Bound.negativeExtreme, Bound.positiveExtreme]
                  grind

theorem widen?_trimmed (noEvolution : en.config.useEvolution = false) {dest : NameId}
    {ty : ScalarType} {old new wider : ValueRange} (h : new.Trimmed ty)
    (hw : en.widen? s block dest ty old new = some wider) : wider.Trimmed ty := by
  rcases widen?_cases noEvolution hw with ⟨-, -, rfl⟩ | ⟨-, -, -, b, -, extent⟩ |
    ⟨-, -, -, extent⟩
  · exact h
  · rw [ValueRange.Trimmed, extent]
    exact Extent.canonical_trimmed ty (Extent.lone_point b)
  · rw [ValueRange.Trimmed, extent]
    exact Extent.trimmed_inside ty _ _

/-- Widening keeps the ends or takes them further. -/
theorem widen?_rank (noEvolution : en.config.useEvolution = false) {dest : NameId}
    {ty : ScalarType} {old new wider : ValueRange} (oldTrimmed : old.Trimmed ty)
    (oldBounded : old.isBounded = true) (newBounded : new.isBounded = true)
    (hw : en.widen? s block dest ty old new = some wider) :
    wider.extent.interval = old.extent.interval ∨
      old.extent.rank ty < wider.extent.rank ty := by
  have cases_ := widen?_cases noEvolution hw
  obtain ⟨oldExtent, oldEquiv⟩ := old
  obtain ⟨newExtent, newEquiv⟩ := new
  -- complements shrink to a common end, intervals grow to an end of the type
  rcases cases_ with ⟨sameMin, sameMax, rfl⟩ | ⟨oldAnti, newAnti, -, b, common, extent⟩ |
    ⟨oldRange, newRange, partial_, extent⟩
  · left
    have interval : ∀ e : Extent, e.isBounded = true → e.interval = .inside e.min e.max := by
      intro e bounded
      cases e with
      | undefined | varying => cases bounded
      | inside | outside => rfl
    rw [interval newExtent newBounded, interval oldExtent oldBounded]
    exact congrArg₂ Extent.inside sameMin.symm sameMax.symm
  · cases oldExtent with
    | undefined | inside | varying => cases oldAnti
    | outside lo hi =>
        cases newExtent with
        | undefined | inside | varying => cases newAnti
        | outside lo' hi' =>
            rw [extent]
            exact oldTrimmed.rank_end (common.imp And.left And.left)
  · cases oldExtent with
    | undefined | outside | varying => cases oldRange
    | inside lo hi =>
        simp only [spansType, ValueRange.min, ValueRange.max, extent, Bool.and_eq_false_iff]
          at partial_
        rw [extent]
        apply Extent.rank_pushed
        rintro ⟨least, greatest⟩
        rcases partial_ with notMin | notMax
        · exact absurd (least.symm.trans notMin) (by decide)
        · exact absurd (greatest.symm.trans notMax) (by decide)

end Engine

end RangeFlow
