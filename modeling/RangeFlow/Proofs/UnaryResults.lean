import RangeFlow.Proofs.BinaryResults

/-! # Results of unary operators

The range of a unary operator or of a conversion holds its result on every value of the range. A
conversion takes an interval around the circle of the target's values: cut off where it would pass
over itself, and turned into a complement where it passes the ends of the target.
-/

namespace RangeFlow

namespace UnaryOp

variable {op : UnaryOp} {source target : ScalarType} {x v exact_ : Int}

/-- A result of a type that does not wrap is the exact result. -/
theorem fits_of_fold (h : op.fold x source target = some v) (hop : op ≠ convert)
    (hexact : op.applyExact x = some exact_) (strict : source.wraps = false) :
    target.fits exact_ = true := by
  unfold fold at h
  rw [if_neg (by simpa using hop), hexact] at h
  simp only [Option.bind_some, strict, Bool.false_eq_true, if_false] at h
  split at h
  · assumption
  · cases h

end UnaryOp

theorem ScalarType.wraps_eq_false {ty : ScalarType} (h : ty.overflowUndefined = true) :
    ty.wraps = false := by
  simp only [overflowUndefined, Bool.and_eq_true, Bool.not_eq_true'] at h
  exact h.2

theorem ScalarType.isIntegral_of_isTracked {ty : ScalarType} (tracked : ty.isTracked = true)
    (h : ty.isPointer = false) : ty.isIntegral = true := by
  cases ty with
  | int | bool => rfl
  | ptr => cases h
  | float => cases tracked

/-- Values that are not between two ends stay out of the interval between them, if it passes all
    values of the type at most once. -/
theorem not_between_wrap {ty : ScalarType} {lo hi v : Int} (order : lo ≤ hi)
    (outside : ¬ (lo ≤ v ∧ v ≤ hi)) (below : hi - v < ty.size) (above : v - lo < ty.size) :
    ¬ Between (ty.wrap lo) (ty.wrap hi) (ty.wrap v) := by
  have residue : ∀ x, (ty.wrap x - ty.wrap lo) % ty.size = (x - lo) % ty.size := by
    intro x
    rw [Int.sub_emod, ty.wrap_emod, ty.wrap_emod, ← Int.sub_emod]
  rw [between_iff_emod (ty.wrap_fits lo) (ty.wrap_fits hi) (ty.wrap_fits v), residue, residue]
  rcases Int.lt_or_le v lo with left | right
  · rw [Int.emod_eq_of_lt (a := hi - lo) (by omega) (by omega), ← Int.add_emod_right,
      Int.emod_eq_of_lt (by omega) (by omega)]
    omega
  · rw [Int.emod_eq_of_lt (a := hi - lo) (by omega) (by omega),
      Int.emod_eq_of_lt (by omega) (by omega)]
    omega

namespace Extent

variable {env : NameId → Int} {ty : ScalarType} {v : Int}

/-- The complement of an interval that passes through the ends of the type is an interval. -/
theorem holds_canonical_apart {c d : Int} (hc : ty.fits c = true) (hd : ty.fits d = true)
    (hv : ty.fits v = true) (h : ¬ Between c d v) :
    ((outside (.const c) (.const d)).canonical ty).Holds env ty v := by
  unfold Between at h
  split at h
  · next order => exact (canonical_outside hc hd).2 order env v hv h
  · next crossed =>
      rw [canonical_outside_of_lt (Int.not_le.mp crossed)]
      split
      · trivial
      · exact holds_dropFull
          ⟨by rw [Bound.reading_const]; omega, by rw [Bound.reading_const]; omega⟩

end Extent

namespace ValueRange

variable {env : NameId → Int} {ty source target : ScalarType} {op : UnaryOp} {vr : ValueRange}
  {v w x : Int}

/-- The difference of a number just below the type and a value. -/
theorem binary_sub_holds (tracked : ty.isTracked = true) (near : ty.minValue - 1 ≤ x)
    (below : x ≤ ty.maxValue) (proper : vr.Proper ty) (hv : ty.fits v = true)
    (holds : vr.Holds env ty v) (defined : ty.overflowUndefined = true → ty.fits (x - v) = true) :
    (binary .sub ty (singleton x) vr).Holds env ty (ty.wrap (x - v)) := by
  cases pointer : ty.isPointer with
  | true =>
      simp only [binary, tracked, pointer]
      trivial
  | false =>
      have integral := ScalarType.isIntegral_of_isTracked tracked pointer
      rw [binary_of_isIntegral integral]
      have single : (singleton x).Holds env ty x := ⟨le_rfl, le_rfl⟩
      refine binaryOfSplitRight_holds (fun partial_ => by cases partial_) proper hv holds
        fun part hpart hold => ?_
      have sum := sum_holds (a := singleton x) (v := x - v) false integral ?_ hpart single hold rfl
        defined
      · simp only [integerBinary, single.isUndefined_eq, hold.isUndefined_eq, Bool.false_and,
          Bool.false_eq_true, if_false]
        split
        · trivial
        · exact sum
      · intro lo hi ends
        cases ends
        exact ⟨near, below⟩

theorem foldSingle_holds (holds : vr.Holds env source v) (h : op.fold v source target = some w) :
    (foldSingle op source target vr).Holds env target w := by
  unfold foldSingle
  split
  · next value folded =>
      obtain ⟨c, single, folded⟩ := Option.bind_eq_some_iff.mp folded
      have same : v = c := by
        obtain ⟨extent, equiv⟩ := vr
        simp only [single?] at single
        split at single
        · next lo hi =>
            obtain ⟨above, below⟩ := holds
            split at single
            · next one =>
                cases single
                simp only [Bound.reading_const] at above below
                omega
            · cases single
        · cases single
      rw [← same, h] at folded
      cases folded
      exact ⟨le_rfl, le_rfl⟩
  · trivial

theorem toPointer_holds (proper : vr.Proper source) (hv : source.fits v = true)
    (holds : vr.Holds env source v) (pointer : target.isPointer = true) :
    (toPointer source vr).Holds env target (target.wrap v) := by
  have wide : source.precision ≤ target.precision := by
    cases target with
    | ptr => exact source.precision_le
    | int | bool | float => cases pointer
  have sizes := ScalarType.size_le_of_precision_le wide
  have bounds := ScalarType.abs_lt_size hv
  unfold toPointer
  split
  · next zero =>
      rw [holds.eq_zero_of_isNull zero, ScalarType.wrap_of_fits target.fits_zero]
      exact ⟨le_rfl, le_rfl⟩
  · split
    · next apart =>
        have nonzero := ne_zero_of_excludesZero proper apart holds
        rintro ⟨above, below⟩
        have zero : target.wrap v = 0 := le_antisymm below above
        exact nonzero ((ScalarType.wrap_eq_zero_iff (by omega) (by omega)).mp zero)
    · trivial

/-- A wider type with negative values has all values of the source. -/
theorem fits_of_widening (hv : source.fits v = true) (wider : source.precision < target.precision)
    (signed : target.signed = true) : target.fits v = true := by
  have double := ScalarType.size_double_of_precision_lt wider
  have bounds := ScalarType.abs_lt_size hv
  have ends := ScalarType.ends_of_signed signed
  exact ScalarType.fits_iff.mpr ⟨by omega, by omega⟩

theorem lt_size_of_convertsExactly {lo hi : Int} (hlo : source.fits lo = true)
    (hhi : source.fits hi = true) (h : convertsExactly source target vr (lo, hi) = true) :
    hi - lo < target.size := by
  rcases Bool.or_eq_true_iff.mp h with wide | near
  · have sizes := ScalarType.size_le_of_precision_le (of_decide_eq_true wide)
    have size := source.size_eq
    rw [ScalarType.fits_iff] at hlo hhi
    omega
  · have zero := eq_of_beq (Bool.and_eq_true_iff.mp near).2
    simp only [Int.shiftRight_eq_div_pow] at zero
    have below := Int.lt_ediv_add_one_mul_self (hi - lo) target.size_pos
    have power : ((2 ^ target.precision : Nat) : Int) = target.size := rfl
    rw [power] at zero
    rw [zero] at below
    omega

theorem convert_inside_holds {lo hi : Bound} {equiv : IdSet} (low : lo.IsLower source)
    (high : hi.IsUpper source) (hv : source.fits v = true)
    (holds : (Extent.inside lo hi).Holds env source v)
    (concrete : lo.isSymbolic = false ∧ hi.isSymbolic = false)
    (infinite : lo.isInfinity = true ∨ hi.isInfinity = true →
      source.precision < target.precision ∧ target.signed = true)
    (exact_ : convertsExactly source target ⟨.inside lo hi, equiv⟩
      (lo.reading env source, hi.reading env source) = true) :
    (canonical target (.inside
      (if lo.isInfinity then .negInf else .const (target.wrap (lo.reading env source)))
      (if hi.isInfinity then .posInf else .const (target.wrap (hi.reading env source))))).Holds
        env target (target.wrap v) := by
  have fitsLo := fits_of_concrete? low.1 (Bound.concrete?_eq_reading env concrete.1)
  have fitsHi := fits_of_concrete? high.1 (Bound.concrete?_eq_reading env concrete.2)
  obtain ⟨above, below⟩ := holds
  by_cases some_ : lo.isInfinity = true ∨ hi.isInfinity = true
  · -- nothing changes in a wider type with negative values
    obtain ⟨wider, signed⟩ := infinite some_
    have fits := fits_of_widening hv wider signed
    have bounds := ScalarType.fits_iff.mp fits
    rw [ScalarType.wrap_of_fits fits,
      ScalarType.wrap_of_fits (fits_of_widening fitsLo wider signed),
      ScalarType.wrap_of_fits (fits_of_widening fitsHi wider signed)]
    exact holds_canonical ⟨Bound.ite_reading_le bounds.1 above, Bound.le_ite_reading bounds.2 below⟩
  · rw [not_or] at some_
    rw [if_neg some_.1, if_neg some_.2]
    exact Extent.holds_canonical_between (target.wrap_fits _) (target.wrap_fits _)
      (target.wrap_fits _)
      (between_wrap above below (lt_size_of_convertsExactly fitsLo fitsHi exact_))

theorem convert_outside_holds {c d : Int} (hc : source.fits c = true) (hd : source.fits d = true)
    (order : c ≤ d) (hv : source.fits v = true) (outside : ¬ (c ≤ v ∧ v ≤ d))
    (wide : source.precision ≤ target.precision) :
    (canonical target (.outside (.const (target.wrap c)) (.const (target.wrap d)))).Holds env target
      (target.wrap v) := by
  have sizes := ScalarType.size_le_of_precision_le wide
  have size := source.size_eq
  rw [ScalarType.fits_iff] at hc hd hv
  exact Extent.holds_canonical_apart (target.wrap_fits _) (target.wrap_fits _) (target.wrap_fits _)
    (not_between_wrap order outside (by omega) (by omega))

theorem convert_holds (proper : vr.Proper source) (hv : source.fits v = true)
    (holds : vr.Holds env source v) :
    (convert source target vr).Holds env target (target.wrap v) := by
  unfold convert
  extract_lets widening x
  have replaced : x.Proper source ∧ x.Holds env source v := by
    dsimp only [x]
    split
    · exact ⟨full_proper source, full_holds hv⟩
    · exact ⟨proper, holds⟩
  clear_value x
  obtain ⟨proper, holds⟩ := replaced
  split
  · trivial
  · next known =>
      split
      · trivial
      · next finite =>
          split
          · trivial
          · next lo hi ends =>
              split
              · next exact_ =>
                  obtain ⟨extent, equiv⟩ := x
                  obtain ⟨low, high⟩ := concrete?_of_constBounds? ends
                  cases (proper : extent.Proper source) with
                  | undefined | varying => exact absurd rfl known
                  | @inside low' high' lower upper =>
                      have concrete : low'.isSymbolic = false ∧ high'.isSymbolic = false := by
                        simpa [isBounded, Extent.isBounded, isSymbolic, Extent.isSymbolic,
                          Extent.min, Extent.max] using known
                      obtain rfl : low'.reading env source = lo := reading_of_concrete? low
                      obtain rfl : high'.reading env source = hi := reading_of_concrete? high
                      refine convert_inside_holds lower upper hv holds concrete ?_ exact_
                      intro infinite
                      have uses : usesInfinity ⟨.inside low' high', equiv⟩ = true := by
                        simpa [usesInfinity, Extent.usesInfinity, Extent.isBounded, Extent.min,
                          Extent.max, ValueRange.min, ValueRange.max] using infinite
                      have widened : source.precision < target.precision ∧
                          target.overflowUndefined = true := by
                        simpa [widening, uses, isRange, Extent.isRange] using finite
                      exact ⟨widened.1, ScalarType.signed_of_overflowUndefined widened.2⟩
                  | outside hc hd order =>
                      cases low
                      cases high
                      refine convert_outside_holds hc hd order hv holds ?_
                      simpa [convertsExactly, isRange, Extent.isRange] using exact_
                  | apartFrom n offset => cases low
              · trivial

/-- The magnitude of an end, cut to the greatest value of the type. -/
theorem reading_absBound? (env : NameId → Int) {bound result : Bound} (signed : ty.signed = true)
    (fits : bound.Fits ty) (h : absBound? ty bound = some result) : result.isSymbolic = false ∧
      result.reading env ty = Min.min ((bound.reading env ty).natAbs : Int) ty.maxValue := by
  have least := ScalarType.minValue_of_signed signed
  have greatest := ty.maxValue_nonneg
  unfold absBound? at h
  split at h
  · cases h
    simp only [Bound.reading, Bound.isSymbolic, true_and]
    omega
  · cases h
    simp only [Bound.reading, Bound.isSymbolic, true_and]
    omega
  · next c =>
      cases h
      have bounds := ScalarType.fits_iff.mp fits
      split
      · next atMin =>
          rw [Extent.isMin_const] at atMin
          unfold Bound.positiveExtreme
          split <;> simp only [Bound.reading, Bound.isSymbolic, true_and] <;> omega
      · next above =>
          rw [Extent.isMin_const] at above
          simp only [Bound.reading, Bound.isSymbolic, true_and]
          omega
  · cases h

theorem absInterval_holds {hasZero : Bool} {s t : Bound} (hs : s.Fits ty ∧ s.isSymbolic = false)
    (ht : t.Fits ty ∧ t.isSymbolic = false) (nonneg : 0 ≤ w)
    (below : w ≤ Max.max (s.reading env ty) (t.reading env ty))
    (above : hasZero = false → Min.min (s.reading env ty) (t.reading env ty) ≤ w) :
    (absInterval ty hasZero s t).Holds env ty w := by
  have interval : ∀ lo hi : Bound, lo.reading env ty ≤ w → w ≤ hi.reading env ty →
      (if (Bound.compare ty lo hi).isLe then canonical ty (.inside lo hi)
        else varying).Holds env ty w := by
    intro lo hi low high
    split
    · exact holds_canonical ⟨low, high⟩
    · trivial
  unfold absInterval
  dsimp only
  cases swapped : Bound.compare ty s t == .greater with
  | true =>
      have order : t.reading env ty ≤ s.reading env ty :=
        Bound.reading_le_of_greater hs.1 ht.1 (eq_of_beq swapped)
      cases hasZero with
      | true => exact interval (.const 0) s nonneg (by omega)
      | false => exact interval t s (by have := above rfl; omega) (by omega)
  | false =>
      have order : s.reading env ty ≤ t.reading env ty :=
        Bound.reading_le_of_not_greater hs ht swapped
      cases hasZero with
      | true => exact interval (.const 0) t nonneg (by omega)
      | false => exact interval s t (by have := above rfl; omega) (by omega)

theorem exists_inside? (ty : ScalarType) {bound lo hi : Bound} (hb : bound.isSymbolic = false)
    (hlo : lo.isSymbolic = false) (hhi : hi.isSymbolic = false) :
    ∃ answer, Bound.inside? ty bound lo hi = some answer := by
  have known : ∀ a b : Bound, a.isSymbolic = false → b.isSymbolic = false →
      ∃ answer, Bound.less? ty a b = some answer := by
    intro a b ha hb
    rw [Bound.less?, Bound.concrete?_eq_reading (fun _ => 0) ha,
      Bound.concrete?_eq_reading (fun _ => 0) hb]
    dsimp only
    split
    · exact ⟨_, rfl⟩
    · split <;> exact ⟨_, rfl⟩
  obtain ⟨below, hbelow⟩ := known bound lo hb hlo
  obtain ⟨above, habove⟩ := known hi bound hhi hb
  cases below <;> simp [Bound.inside?, hbelow, habove]

/-- An interval without names that is not known to hold zero does not. -/
theorem rangeExcludesZero_of_not_includesZero (interval : vr.isRange = true)
    (concrete : vr.min.isSymbolic = false ∧ vr.max.isSymbolic = false)
    (h : (vr.includesZero? ty == some true) = false) : vr.rangeExcludesZero ty = true := by
  have bounded : vr.isBounded = true := by
    obtain ⟨lo, hi, extent⟩ := exists_inside interval
    simp [isBounded, extent, Extent.isBounded]
  have zero : (Bound.const 0).isSymbolic = false := rfl
  obtain ⟨answer, inside⟩ := exists_inside? ty zero concrete.1 concrete.2
  cases answer with
  | true => simp [includesZero?, bounded, inside, interval] at h
  | false => simp [rangeExcludesZero, includesZero?, bounded, inside, interval]

section

variable (signed : ty.signed = true) (proper : vr.Proper ty) (holds : vr.Holds env ty v)
  (interval : vr.isRange = true)
  (concrete : vr.min.isSymbolic = false ∧ vr.max.isSymbolic = false)

include signed proper holds interval concrete

/-- Only the least value has a magnitude outside the type, and an interval that starts above it does
    not hold it. -/
theorem natAbs_fits (hv : ty.fits v = true) (limited : vr.min.isMin ty = false) :
    ty.fits v.natAbs = true := by
  have least := ScalarType.minValue_of_signed signed
  have bounds := ScalarType.fits_iff.mp hv
  have start := (holds.within interval).1
  have number : vr.min.concrete? ty = some (vr.min.reading env ty) :=
    Bound.concrete?_eq_reading env concrete.1
  have low := ScalarType.fits_iff.mp (fits_of_concrete? proper.min_fits number)
  have above : vr.min.reading env ty ≠ ty.minValue := by
    simpa [Bound.isMin, number] using limited
  exact ScalarType.fits_iff.mpr ⟨by omega, by omega⟩

/-- The magnitudes of the ends enclose that of a value. -/
theorem absEnds_hold {s t : Bound} (hs : absBound? ty vr.min = some s)
    (ht : absBound? ty vr.max = some t) (fits : ty.fits v.natAbs = true) :
    (absInterval ty (vr.includesZero? ty == some true) s t).Holds env ty v.natAbs := by
  obtain ⟨above, below⟩ := holds.within interval
  obtain ⟨numberS, readS⟩ := reading_absBound? env signed proper.min_fits hs
  obtain ⟨numberT, readT⟩ := reading_absBound? env signed proper.max_fits ht
  rw [ScalarType.fits_iff] at fits
  refine absInterval_holds ⟨(absBound?_fits signed proper.min_fits hs).1, numberS⟩
    ⟨(absBound?_fits signed proper.max_fits ht).1, numberT⟩ (by omega) (by omega) fun apart => ?_
  have sign := pos_or_neg_of_rangeExcludesZero env proper
    (rangeExcludesZero_of_not_includesZero interval concrete apart) (by simpa using concrete)
  omega

end

theorem absolute_holds (proper : vr.Proper ty) (hv : ty.fits v = true) (holds : vr.Holds env ty v)
    (h : UnaryOp.abs.fold v ty ty = some w) : (absolute ty vr).Holds env ty w := by
  obtain ⟨exact_, hexact, rfl⟩ := UnaryOp.fold_eq_some h
  obtain rfl : exact_ = v.natAbs := Wide.eq_of_check hexact
  unfold absolute
  split
  · next nonnegative =>
      have positive : 0 ≤ v := by
        rcases Bool.or_eq_true_iff.mp nonnegative with unsigned | nonnegative
        · rw [ScalarType.fits_iff,
            ScalarType.minValue_of_not_signed (by simpa using unsigned)] at hv
          exact hv.1
        · exact holds.nonneg nonnegative hv
      rw [Int.natAbs_of_nonneg positive, ScalarType.wrap_of_fits hv]
      exact holds
  · next negative =>
      have signed : ty.signed = true := by
        cases known : ty.signed with
        | true => rfl
        | false => simp [known] at negative
      split
      · trivial
      · next known =>
          have interval : vr.isRange = true := by
            simp only [Bool.or_eq_true, not_or, Bool.not_eq_true'] at known
            simpa using known.1
          have concrete : vr.min.isSymbolic = false ∧ vr.max.isSymbolic = false := by
            obtain ⟨lo, hi, extent⟩ := exists_inside interval
            simpa [interval, isSymbolic, Extent.isSymbolic, extent, Extent.isBounded,
              ValueRange.min, ValueRange.max] using known
          split
          · trivial
          · next limited =>
              have fits : ty.fits v.natAbs = true := by
                cases undefined : ty.overflowUndefined with
                | true =>
                    exact UnaryOp.fits_of_fold h (by simp) hexact
                      (ScalarType.wraps_eq_false undefined)
                | false =>
                    exact natAbs_fits signed proper holds interval concrete hv
                      (by simpa [undefined] using limited)
              rw [ScalarType.wrap_of_fits fits]
              split
              · next s t hs ht =>
                  split
                  · trivial
                  · exact absEnds_hold signed proper holds interval concrete hs ht fits
              · trivial

theorem absOrConvert_holds (hop : op = .abs ∨ op = .convert) (same : op = .abs → source = target)
    (proper : vr.Proper source) (hv : source.fits v = true) (holds : vr.Holds env source v)
    (h : op.fold v source target = some w) :
    (absOrConvert op source target vr).Holds env target w := by
  rcases hop with rfl | rfl
  · cases same rfl
    exact absolute_holds proper hv holds h
  · cases h
    exact convert_holds proper hv holds

theorem unaryOfSplit_holds (hop : op = .abs ∨ op = .convert) (same : op = .abs → source = target)
    (proper : vr.Proper source) (hv : source.fits v = true) (holds : vr.Holds env source v)
    (h : op.fold v source target = some w) :
    (unaryOfSplit op source target vr).Holds env target w := by
  have each : ∀ part : ValueRange, part.Proper source → part.Holds env source v →
      (absOrConvert op source target part).Holds env target w :=
    fun part hpart hold => absOrConvert_holds hop same hpart hv hold h
  unfold unaryOfSplit
  cases pointer : source.isPointer with
  | true => exact each vr proper holds
  | false =>
      refine holds_of_sides proper hv holds (fun part hpart => ?_) each
      unfold absOrConvert
      split
      · next magnitude =>
          cases same magnitude
          exact absolute_proper hpart
      · exact convert_proper source target part

/-- The range of a unary operator between types that are followed holds its result on a value of the
    range. -/
theorem unary_holds_of_tracked (tracked : source.isTracked = true ∧ target.isTracked = true)
    (same : op = .negate ∨ op = .bitNot ∨ op = .abs → source = target)
    (proper : vr.Proper source) (hv : source.fits v = true) (holds : vr.Holds env source v)
    (h : op.fold v source target = some w) : (unary op source target vr).Holds env target w := by
  unfold unary
  rw [if_neg (by simp [tracked]), holds.isUndefined_eq, if_neg (by simp)]
  cases op with
  | negate =>
      cases same (.inl rfl)
      obtain ⟨exact_, hexact, rfl⟩ := UnaryOp.fold_eq_some h
      have difference : exact_ = 0 - v := by
        rw [Wide.eq_of_check hexact]
        omega
      have zero := ScalarType.fits_iff.mp source.fits_zero
      rw [difference] at hexact ⊢
      exact binary_sub_holds tracked.1 (by omega) zero.2 proper hv holds fun undefined =>
        UnaryOp.fits_of_fold h (by simp) hexact (ScalarType.wraps_eq_false undefined)
  | bitNot =>
      cases same (.inr (.inl rfl))
      obtain ⟨exact_, hexact, rfl⟩ := UnaryOp.fold_eq_some h
      have difference : exact_ = -1 - v := by
        cases hexact
        unfold Wide.not
        omega
      have zero := ScalarType.fits_iff.mp source.fits_zero
      rw [difference] at hexact ⊢
      exact binary_sub_holds tracked.1 (by omega) (by omega) proper hv holds fun undefined =>
        UnaryOp.fits_of_fold h (by simp) hexact (ScalarType.wraps_eq_false undefined)
  | truthNot | floatToInt | intToFloat => exact foldSingle_holds holds h
  | abs =>
      exact unaryOfSplit_holds (.inl rfl) (fun _ => same (.inr (.inr rfl))) proper hv holds h
  | convert =>
      dsimp only
      split
      · next pointer =>
          cases h
          exact toPointer_holds proper hv holds pointer
      · exact unaryOfSplit_holds (.inr rfl) (fun impossible => by cases impossible) proper hv
          holds h

/-- The range of a unary operator, or of a conversion between two types, holds its result on a value
    of the range, if there is one. -/
theorem unary_holds (same : op = .negate ∨ op = .bitNot ∨ op = .abs → source = target)
    (proper : vr.Proper source) (hv : source.fits v = true) (holds : vr.Holds env source v)
    (h : op.fold v source target = some w) : (unary op source target vr).Holds env target w := by
  by_cases tracked : source.isTracked = true ∧ target.isTracked = true
  · exact unary_holds_of_tracked tracked same proper hv holds h
  · have untracked : (!source.isTracked || !target.isTracked) = true := by
      cases first : source.isTracked <;> cases second : target.isTracked <;> simp_all
    unfold unary
    rw [if_pos untracked]
    trivial

/-- A complement that passes the ends of the target when it is converted. -/
theorem unary_holds_convert : (unary .convert (.int ⟨8, eight_bits⟩ .unsigned)
    (.int ⟨8, eight_bits⟩ .signed) (anti (.const 100) (.const 200))).Holds (fun _ => 0)
      (.int ⟨8, eight_bits⟩ .signed) (-6) := by
  have complement : (anti (.const 100) (.const 200)).Proper (.int ⟨8, eight_bits⟩ .unsigned) :=
    .outside rfl rfl (by decide)
  have holds : (anti (.const 100) (.const 200)).Holds (fun _ => 0)
      (.int ⟨8, eight_bits⟩ .unsigned) 250 :=
    fun inside => absurd inside.2 (by decide)
  exact unary_holds (by simp) complement rfl holds rfl

end ValueRange

end RangeFlow
