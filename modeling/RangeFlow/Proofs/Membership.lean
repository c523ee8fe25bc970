import RangeFlow.Range.Lattice
import RangeFlow.Proofs.Wrapping

/-! # Values of ranges

When every name has a value, a range stands for a set of numbers. An extent is proper for a type if
its ends are values of the type, with infinities only on the outer sides. On proper ranges `meet`
covers the values of both sides. Without that it does not: a lower end below every value of the
type compares as less than itself.
-/

namespace RangeFlow

namespace Bound

variable {env : NameId → Int} {ty : ScalarType} {a b : Bound}

/-- The number a bound stands for when the names have values. -/
def reading (env : NameId → Int) (ty : ScalarType) : Bound → Int
  | negInf => ty.minValue
  | const c => c
  | symbolic n offset => env n + offset
  | posInf => ty.maxValue

/-- The bound, if it is a constant, is a value of the type. -/
def Fits (ty : ScalarType) : Bound → Prop
  | const c => ty.fits c = true
  | _ => True

/-- The bound can be the lower end of an interval in the type. -/
def IsLower (ty : ScalarType) (b : Bound) : Prop := b.Fits ty ∧ b ≠ posInf

/-- The bound can be the upper end of an interval in the type. -/
def IsUpper (ty : ScalarType) (b : Bound) : Prop := b.Fits ty ∧ b ≠ negInf

@[simp] theorem reading_const (c : Int) : (const c).reading env ty = c := rfl

@[simp] theorem fits_const {c : Int} : (const c).Fits ty ↔ ty.fits c = true := .rfl

@[simp] theorem isLower_const {c : Int} : (const c).IsLower ty ↔ ty.fits c = true := by
  simp [IsLower]

@[simp] theorem isUpper_const {c : Int} : (const c).IsUpper ty ↔ ty.fits c = true := by
  simp [IsUpper]

/-- Different bounds that mention a name do not compare. -/
theorem compare_of_isSymbolic (differ : a ≠ b) (h : a.isSymbolic = true ∨ b.isSymbolic = true) :
    compare ty a b = .unknown := by
  cases a with
  | symbolic n c =>
      cases b with
      | symbolic m d =>
          simp only [compare, compareAssuming, if_neg differ]
          split
          · rfl
          · rfl
      | negInf | const | posInf => rfl
  | negInf | const | posInf =>
      cases b with
      | symbolic m d => rfl
      | negInf | const | posInf => simp [isSymbolic] at h

@[simp] theorem compare_self : compare ty a a = .equal := by
  simp [compare, compareAssuming, pure]

@[simp] theorem compare_const (c d : Int) : compare ty (const c) (const d) = .ofInts c d := by
  by_cases same : c = d
  · subst same
    simp [ValueOrder.ofInts]
  · simp [compare, compareAssuming, same, pure]

@[simp] theorem compare_negInf_const (c : Int) : compare ty negInf (const c) = .less := rfl

@[simp] theorem compare_const_negInf (c : Int) : compare ty (const c) negInf = .greater := rfl

@[simp] theorem compare_posInf_const (c : Int) : compare ty posInf (const c) = .greater := rfl

@[simp] theorem compare_const_posInf (c : Int) : compare ty (const c) posInf = .less := rfl

@[simp] theorem compare_negInf_posInf : compare ty negInf posInf = .less := rfl

@[simp] theorem compare_posInf_negInf : compare ty posInf negInf = .greater := rfl

theorem ofInts_eq_less {c d : Int} : ValueOrder.ofInts c d = .less ↔ c < d := by
  unfold ValueOrder.ofInts
  grind

theorem ofInts_eq_equal {c d : Int} : ValueOrder.ofInts c d = .equal ↔ c = d := by
  unfold ValueOrder.ofInts
  grind

theorem ofInts_eq_greater {c d : Int} : ValueOrder.ofInts c d = .greater ↔ d < c := by
  unfold ValueOrder.ofInts
  grind

theorem eq_of_compare_equal (h : compare ty a b = .equal) : a = b := by
  refine Classical.byContradiction fun differ => ?_
  by_cases symbolic : a.isSymbolic = true ∨ b.isSymbolic = true
  · rw [compare_of_isSymbolic differ symbolic] at h
    cases h
  · cases a <;> cases b <;> simp_all [isSymbolic, ofInts_eq_equal]

/-- What compares in a direction mentions no name. -/
theorem not_isSymbolic_of_compare (h : compare ty a b = .less ∨ compare ty a b = .greater) :
    a.isSymbolic = false ∧ b.isSymbolic = false := by
  by_cases same : a = b
  · subst same
    simp at h
  · by_cases symbolic : a.isSymbolic = true ∨ b.isSymbolic = true
    · rw [compare_of_isSymbolic same symbolic] at h
      simp at h
    · simpa using symbolic

theorem reading_le_of_less (ha : a.Fits ty) (hb : b.Fits ty) (h : compare ty a b = .less) :
    a.reading env ty ≤ b.reading env ty := by
  obtain ⟨constA, constB⟩ := not_isSymbolic_of_compare (.inl h)
  have least := ty.minValue_nonpos
  have greatest := ty.maxValue_nonneg
  cases a <;> cases b <;>
    simp_all [isSymbolic, Fits, ScalarType.fits_iff, reading, ofInts_eq_less] <;> omega

theorem reading_le_of_greater (ha : a.Fits ty) (hb : b.Fits ty) (h : compare ty a b = .greater) :
    b.reading env ty ≤ a.reading env ty := by
  obtain ⟨constA, constB⟩ := not_isSymbolic_of_compare (.inr h)
  have least := ty.minValue_nonpos
  have greatest := ty.maxValue_nonneg
  cases a <;> cases b <;>
    simp_all [isSymbolic, Fits, ScalarType.fits_iff, reading, ofInts_eq_greater] <;> omega

/-- The lower of two lower ends is a lower end, and not above either of them. -/
theorem lowerEnd?_spec (env : NameId → Int) {m : Bound} (ha : a.IsLower ty) (hb : b.IsLower ty)
    (h : ValueRange.lowerEnd? ty a b = some m) :
    m.IsLower ty ∧ m.reading env ty ≤ a.reading env ty ∧ m.reading env ty ≤ b.reading env ty := by
  unfold ValueRange.lowerEnd? at h
  split at h
  · next order =>
      cases h
      rw [eq_of_compare_equal order]
      exact ⟨hb, Int.le_refl _, Int.le_refl _⟩
  · next order =>
      cases h
      exact ⟨hb, reading_le_of_greater ha.1 hb.1 order, Int.le_refl _⟩
  · next order =>
      cases h
      exact ⟨ha, Int.le_refl _, reading_le_of_less ha.1 hb.1 order⟩
  · cases h
  · cases h

/-- The higher of two upper ends is an upper end, and not below either of them. -/
theorem upperEnd?_spec (env : NameId → Int) {m : Bound} (ha : a.IsUpper ty) (hb : b.IsUpper ty)
    (h : ValueRange.upperEnd? ty a b = some m) :
    m.IsUpper ty ∧ a.reading env ty ≤ m.reading env ty ∧ b.reading env ty ≤ m.reading env ty := by
  unfold ValueRange.upperEnd? at h
  split at h
  · next order =>
      cases h
      rw [eq_of_compare_equal order]
      exact ⟨hb, Int.le_refl _, Int.le_refl _⟩
  · next order =>
      cases h
      exact ⟨hb, reading_le_of_less ha.1 hb.1 order, Int.le_refl _⟩
  · next order =>
      cases h
      exact ⟨ha, Int.le_refl _, reading_le_of_greater ha.1 hb.1 order⟩
  · cases h
  · cases h

theorem concrete?_eq_reading (env : NameId → Int) (h : a.isSymbolic = false) :
    a.concrete? ty = some (a.reading env ty) := by
  cases a with
  | symbolic => cases h
  | negInf | const | posInf => rfl

theorem lt_of_less? (env : NameId → Int) (ha : a.isSymbolic = false) (hb : b.isSymbolic = false)
    (low : a ≠ negInf) (high : b ≠ posInf) (h : less? ty a b = some true) :
    a.reading env ty < b.reading env ty := by
  rw [less?, concrete?_eq_reading env ha, concrete?_eq_reading env hb] at h
  dsimp only at h
  split at h
  · assumption
  · simp [high] at h

theorem le_of_less? (env : NameId → Int) (ha : a.isSymbolic = false) (hb : b.isSymbolic = false)
    (fitsA : a.Fits ty) (fitsB : b.Fits ty) (h : less? ty a b = some true) :
    a.reading env ty ≤ b.reading env ty := by
  have least := ty.minValue_nonpos
  have greatest := ty.maxValue_nonneg
  by_cases low : a = negInf
  · subst low
    cases b <;> simp_all [isSymbolic, Fits, ScalarType.fits_iff, reading]
    omega
  · by_cases high : b = posInf
    · subst high
      cases a <;> simp_all [isSymbolic, Fits, ScalarType.fits_iff, reading]
    · exact Int.le_of_lt (lt_of_less? env ha hb low high h)

theorem le_of_not_less? (env : NameId → Int) (ha : a.isSymbolic = false) (hb : b.isSymbolic = false)
    (h : less? ty a b = some false) : b.reading env ty ≤ a.reading env ty := by
  rw [less?, concrete?_eq_reading env ha, concrete?_eq_reading env hb] at h
  dsimp only at h
  split at h
  · cases h
  · exact Int.not_lt.mp ‹_›

theorem inside?_eq_false {lo hi : Bound} (h : inside? ty b lo hi = some false) :
    less? ty b lo = some true ∨ less? ty hi b = some true := by
  unfold inside? at h
  cases below : less? ty b lo with
  | none => simp [below] at h
  | some answer =>
      cases answer with
      | true => exact .inl rfl
      | false =>
          cases above : less? ty hi b with
          | none => simp [below, above] at h
          | some answer =>
              cases answer with
              | true => exact .inr rfl
              | false => simp [below, above] at h

theorem inside?_eq_true {lo hi : Bound} (h : inside? ty b lo hi = some true) :
    less? ty b lo = some false ∧ less? ty hi b = some false := by
  unfold inside? at h
  cases below : less? ty b lo with
  | none => simp [below] at h
  | some answer =>
      cases answer with
      | true => simp [below] at h
      | false =>
          cases above : less? ty hi b with
          | none => simp [below, above] at h
          | some answer =>
              cases answer with
              | true => simp [below, above] at h
              | false => exact ⟨rfl, rfl⟩

end Bound

namespace Extent

variable {env : NameId → Int} {ty : ScalarType} {e : Extent} {v : Int}

/-- The number is among the values when the names have values. -/
def Holds (env : NameId → Int) (ty : ScalarType) (v : Int) : Extent → Prop
  | undefined => False
  | inside lo hi => lo.reading env ty ≤ v ∧ v ≤ hi.reading env ty
  | outside lo hi => ¬ (lo.reading env ty ≤ v ∧ v ≤ hi.reading env ty)
  | varying => True

/-- The ends are values of the type, and infinities stand only on the outer sides. A complement
    leaves out an interval that is not empty. -/
inductive Proper (ty : ScalarType) : Extent → Prop where
  | undefined : Proper ty undefined
  | varying : Proper ty varying
  | inside {lo hi : Bound} (low : lo.IsLower ty) (high : hi.IsUpper ty) : Proper ty (inside lo hi)
  | outside {c d : Int} (low : ty.fits c = true) (high : ty.fits d = true) (ordered : c ≤ d) :
      Proper ty (outside (.const c) (.const d))
  | apartFrom (n : NameId) (offset : Int) :
      Proper ty (outside (.symbolic n offset) (.symbolic n offset))

theorem isBounded_of_ne (defined : e ≠ undefined) (known : e ≠ varying) : e.isBounded = true := by
  cases e with
  | undefined => exact absurd rfl defined
  | varying => exact absurd rfl known
  | inside | outside => rfl

theorem isMin_const {c : Int} : (Bound.const c).isMin ty = true ↔ c = ty.minValue := by
  simp [Bound.isMin, Bound.concrete?]

theorem isMax_const {c : Int} : (Bound.const c).isMax ty = true ↔ c = ty.maxValue := by
  simp [Bound.isMax, Bound.concrete?]

theorem fits_minValue (ty : ScalarType) : ty.fits ty.minValue = true :=
  ScalarType.fits_iff.mpr ⟨Int.le_refl _, Int.le_trans ty.minValue_nonpos ty.maxValue_nonneg⟩

theorem fits_maxValue (ty : ScalarType) : ty.fits ty.maxValue = true :=
  ScalarType.fits_iff.mpr ⟨Int.le_trans ty.minValue_nonpos ty.maxValue_nonneg, Int.le_refl _⟩

/-- The complement of an interval of values, with the missing ends of the type cut off. -/
theorem preferRange_outside {c d : Int} (low : ty.fits c = true) (high : ty.fits d = true)
    (order : c ≤ d) : ((outside (.const c) (.const d)).preferRange ty).Proper ty ∧
      ∀ env v, ty.fits v = true → (outside (.const c) (.const d)).Holds env ty v →
        ((outside (.const c) (.const d)).preferRange ty).Holds env ty v := by
  have bounds := ScalarType.fits_iff.mp low
  have bounds' := ScalarType.fits_iff.mp high
  simp only [preferRange, Bound.concrete?]
  split
  · exact ⟨.varying, fun _ _ _ _ => trivial⟩
  · next notFull =>
      simp only [Bool.and_eq_true, isMin_const, isMax_const, not_and] at notFull
      split
      · next atMin =>
          have start : c = ty.minValue := isMin_const.mp (Bool.and_eq_true_iff.mp atMin).1
          have below : d + 1 ≤ ty.maxValue := by
            have := notFull start
            omega
          refine ⟨.inside ?_ ?_, ?_⟩
          · exact Bound.isLower_const.mpr (ScalarType.fits_iff.mpr ⟨by omega, below⟩)
          · exact Bound.isUpper_const.mpr (fits_maxValue ty)
          · intro env v fits holds
            have := ScalarType.fits_iff.mp fits
            simp only [Holds, Bound.reading] at holds ⊢
            omega
      · next notMin =>
          split
          · next atMax =>
              have stop : d = ty.maxValue := isMax_const.mp atMax
              have above : c ≠ ty.minValue := fun start => notFull start stop
              refine ⟨.inside ?_ ?_, ?_⟩
              · exact Bound.isLower_const.mpr (fits_minValue ty)
              · exact Bound.isUpper_const.mpr (ScalarType.fits_iff.mpr ⟨by omega, by omega⟩)
              · intro env v fits holds
                have := ScalarType.fits_iff.mp fits
                simp only [Holds, Bound.reading] at holds ⊢
                omega
          · exact ⟨.outside low high order, fun _ _ _ holds => holds⟩

theorem Proper.dropFull (h : e.Proper ty) : (e.dropFull ty).Proper ty := by
  cases h with
  | inside low high =>
      rw [Extent.dropFull]
      split
      · exact .varying
      · exact .inside low high
  | undefined => exact .undefined
  | varying => exact .varying
  | outside low high order => exact .outside low high order
  | apartFrom n offset => exact .apartFrom n offset

theorem holds_dropFull (h : e.Holds env ty v) : (e.dropFull ty).Holds env ty v := by
  cases e with
  | inside lo hi =>
      rw [dropFull]
      split
      · trivial
      · exact h
  | undefined | varying | outside => exact h

theorem plain_ends (bounded : e.isBounded = true) (plain : e.isSymbolic = false) :
    e.min.isSymbolic = false ∧ e.max.isSymbolic = false := by
  simpa [isSymbolic, bounded] using plain

/-- The normal form of an extent whose ends are in order. -/
theorem canonical_of_le (env : NameId → Int) (bounded : e.isBounded = true)
    (plain : e.isSymbolic = false) (order : e.min.reading env ty ≤ e.max.reading env ty) :
    e.canonical ty = (e.preferRange ty).dropFull ty := by
  obtain ⟨low, high⟩ := plain_ends bounded plain
  cases e with
  | undefined | varying => cases bounded
  | inside | outside =>
      simp [canonical, plain, ordered, Bound.concrete?_eq_reading env low,
        Bound.concrete?_eq_reading env high, Int.not_lt.mpr order]

theorem canonical_outside_of_le {c d : Int} (order : c ≤ d) :
    (outside (.const c) (.const d)).canonical ty =
      ((outside (.const c) (.const d)).preferRange ty).dropFull ty :=
  canonical_of_le (fun _ => 0) rfl rfl order

/-- An interval that passes through the ends of the type is written as a complement. -/
theorem canonical_inside_of_lt {c d : Int} (crossed : d < c) :
    (inside (.const c) (.const d)).canonical ty = if c - 1 < d + 1 then varying
      else ((outside (.const (d + 1)) (.const (c - 1))).preferRange ty).dropFull ty := by
  have flipped : (inside (.const c) (.const d)).ordered ty =
      if c - 1 < d + 1 then varying else outside (.const (d + 1)) (.const (c - 1)) := by
    simp [ordered, Extent.min, Extent.max, Bound.concrete?, crossed]
  change (((inside (.const c) (.const d)).ordered ty).preferRange ty).dropFull ty = _
  rw [flipped]
  split <;> rfl

/-- The complement of an interval that passes through the ends of the type is an interval. -/
theorem canonical_outside_of_lt {c d : Int} (crossed : d < c) :
    (outside (.const c) (.const d)).canonical ty = if c - 1 < d + 1 then varying
      else (inside (.const (d + 1)) (.const (c - 1))).dropFull ty := by
  have flipped : (outside (.const c) (.const d)).ordered ty =
      if c - 1 < d + 1 then varying else inside (.const (d + 1)) (.const (c - 1)) := by
    simp [ordered, Extent.min, Extent.max, Bound.concrete?, crossed]
  change (((outside (.const c) (.const d)).ordered ty).preferRange ty).dropFull ty = _
  rw [flipped]
  split <;> rfl

/-- The normal form of the complement of an interval of values. -/
theorem canonical_outside {c d : Int} (low : ty.fits c = true) (high : ty.fits d = true) :
    ((outside (.const c) (.const d)).canonical ty).Proper ty ∧
      (c ≤ d → ∀ env v, ty.fits v = true → (outside (.const c) (.const d)).Holds env ty v →
        ((outside (.const c) (.const d)).canonical ty).Holds env ty v) := by
  by_cases order : c ≤ d
  · rw [canonical_outside_of_le order]
    obtain ⟨proper, holds⟩ := preferRange_outside low high order
    exact ⟨proper.dropFull, fun _ env v fits h => holds_dropFull (holds env v fits h)⟩
  · refine ⟨?_, fun h => absurd h order⟩
    rw [canonical_outside_of_lt (Int.not_le.mp order)]
    rw [ScalarType.fits_iff] at low high
    split
    · exact .varying
    · refine Proper.dropFull (.inside ?_ ?_)
      · exact Bound.isLower_const.mpr (ScalarType.fits_iff.mpr ⟨by omega, by omega⟩)
      · exact Bound.isUpper_const.mpr (ScalarType.fits_iff.mpr ⟨by omega, by omega⟩)

/-- The normal form of an interval. -/
theorem canonical_inside {lo hi : Bound} (low : lo.IsLower ty) (high : hi.IsUpper ty) :
    ((inside lo hi).canonical ty).Proper ty := by
  have proper : (inside lo hi).Proper ty := .inside low high
  simp only [canonical]
  split
  · exact proper
  · next concrete =>
      have numbers : lo.isSymbolic = false ∧ hi.isSymbolic = false := by
        simpa [isSymbolic, isBounded, Extent.min, Extent.max] using concrete
      simp only [ordered, Extent.min, Extent.max,
        Bound.concrete?_eq_reading (fun _ => 0) numbers.1,
        Bound.concrete?_eq_reading (fun _ => 0) numbers.2]
      split
      · next crossed =>
          split
          · next c d =>
              have bounds := ScalarType.fits_iff.mp (Bound.isLower_const.mp low)
              have bounds' := ScalarType.fits_iff.mp (Bound.isUpper_const.mp high)
              split
              · exact .varying
              · next apart =>
                  simp only [Bound.reading_const] at crossed apart ⊢
                  refine (preferRange_outside ?_ ?_ (by omega)).1.dropFull
                  · exact ScalarType.fits_iff.mpr ⟨by omega, by omega⟩
                  · exact ScalarType.fits_iff.mpr ⟨by omega, by omega⟩
          · exact .varying
      · exact proper.dropFull

theorem Proper.canonical (h : e.Proper ty) : (e.canonical ty).Proper ty := by
  cases h with
  | undefined => exact .undefined
  | varying => exact .varying
  | inside low high => exact canonical_inside low high
  | outside low high order => exact (canonical_outside low high).1
  | apartFrom n offset => exact .apartFrom n offset

end Extent

namespace ValueRange

variable {env : NameId → Int} {ty : ScalarType} {a b : ValueRange} {v : Int}

/-- The number is among the values when the names have values. -/
def Holds (env : NameId → Int) (ty : ScalarType) (vr : ValueRange) (v : Int) : Prop :=
  vr.extent.Holds env ty v

/-- The range is proper for a type that the analysis follows. -/
def Proper (ty : ScalarType) (vr : ValueRange) : Prop := vr.extent.Proper ty

@[simp] theorem withEquiv_extent (vr : ValueRange) (equiv : IdSet) :
    (vr.withEquiv equiv).extent = vr.extent := by
  unfold withEquiv
  split <;> rfl

theorem isRange_of_isBounded (bounded : a.isBounded = true) (h : a.isAnti = false) :
    a.isRange = true := by
  obtain ⟨extent, equiv⟩ := a
  cases extent with
  | inside => rfl
  | outside => cases h
  | undefined | varying => cases bounded

/-- A proper range without zero does not hold zero. -/
theorem ne_zero_of_excludesZero (proper : a.Proper ty) (h : a.excludesZero ty = true)
    (holds : a.Holds env ty v) : v ≠ 0 := by
  rintro rfl
  obtain ⟨extent, equiv⟩ := a
  unfold excludesZero at h
  obtain ⟨concrete, zero⟩ := Bool.and_eq_true_iff.mp h
  cases (proper : extent.Proper ty) with
  | undefined => exact holds
  | varying => simp [includesZero?, isBounded, Extent.isBounded] at zero
  | apartFrom n offset =>
      simp [isSymbolic, Extent.isSymbolic, Extent.isBounded, Extent.min,
        Bound.isSymbolic] at concrete
  | @inside lo hi low high =>
      have numbers : lo.isSymbolic = false ∧ hi.isSymbolic = false := by
        simpa [isSymbolic, Extent.isSymbolic, Extent.isBounded, Extent.min,
          Extent.max] using concrete
      have apart : Bound.inside? ty (.const 0) lo hi = some false := by
        simpa [includesZero?, isBounded, Extent.isBounded, isRange, Extent.isRange, min, max,
          Extent.min, Extent.max] using zero
      obtain ⟨start, stop⟩ := holds
      rcases Bound.inside?_eq_false apart with below | above
      · have := Bound.lt_of_less? env rfl numbers.1 (by simp) low.2 below
        simp only [Bound.reading_const] at this
        omega
      · have := Bound.lt_of_less? env numbers.2 rfl high.2 (by simp) above
        simp only [Bound.reading_const] at this
        omega
  | @outside c d low high order =>
      have within : Bound.inside? ty (.const 0) (.const c) (.const d) = some true := by
        simpa [includesZero?, isBounded, Extent.isBounded, isRange, Extent.isRange, min, max,
          Extent.min, Extent.max] using zero
      obtain ⟨below, above⟩ := Bound.inside?_eq_true within
      exact holds ⟨Bound.le_of_not_less? env rfl rfl below, Bound.le_of_not_less? env rfl rfl above⟩

/-- An interval and the complement of another that do not overlap: the complement covers both. -/
theorem holds_of_not_overlaps {lo hi : Bound} {c d : Int}
    (low : lo.IsLower ty) (high : hi.IsUpper ty) (hlo : lo.isSymbolic = false)
    (hhi : hi.isSymbolic = false) (hc : ty.fits c = true)
    (first : Bound.inside? ty (.const c) lo hi = some false)
    (second : Bound.inside? ty lo (.const c) (.const d) = some false)
    (holds : (Extent.inside lo hi).Holds env ty v) :
    (Extent.outside (.const c) (.const d)).Holds env ty v := by
  rintro ⟨above, below⟩
  obtain ⟨start, stop⟩ := holds
  rcases Bound.inside?_eq_false first with left | right
  · have left := Bound.lt_of_less? env rfl hlo (by simp) low.2 left
    rcases Bound.inside?_eq_false second with less | greater
    · have less := Bound.le_of_less? (b := .const c) env hlo rfl low.1 hc less
      simp only [Bound.reading_const] at left less
      omega
    · have greater := Bound.lt_of_less? env rfl hlo (by simp) low.2 greater
      omega
  · have right := Bound.lt_of_less? env hhi rfl high.2 (by simp) right
    omega

theorem nonnull_proper (ty : ScalarType) : nonnull.Proper ty :=
  .outside ty.fits_zero ty.fits_zero (Int.le_refl 0)

/-- The range holds what both ranges hold, and is proper. -/
def Covers (ty : ScalarType) (a b : ValueRange) (e : Extent) : Prop :=
  e.Proper ty ∧ ∀ env v, a.Holds env ty v ∨ b.Holds env ty v → e.Holds env ty v

theorem giveUp_covers (ha : a.Proper ty) (hb : b.Proper ty) :
    a.Covers ty b (giveUp ty a b).extent := by
  unfold giveUp
  split
  · next excluded =>
      obtain ⟨notA, notB⟩ := Bool.and_eq_true_iff.mp excluded
      refine ⟨nonnull_proper ty, fun env v holds => ?_⟩
      have differs : v ≠ 0 := by
        rcases holds with holds | holds
        · exact ne_zero_of_excludesZero ha notA holds
        · exact ne_zero_of_excludesZero hb notB holds
      rintro ⟨above, below⟩
      exact differs (Int.le_antisymm below above)
  · exact ⟨.varying, fun _ _ _ => trivial⟩

theorem cover?_inside {lo hi lo' hi' : Bound} {equiv equiv' : IdSet} (low : lo.IsLower ty)
    (high : hi.IsUpper ty) (low' : lo'.IsLower ty) (high' : hi'.IsUpper ty) {e : Extent}
    (h : cover? ty ⟨.inside lo hi, equiv⟩ ⟨.inside lo' hi', equiv'⟩ = some e) :
    Covers ty ⟨.inside lo hi, equiv⟩ ⟨.inside lo' hi', equiv'⟩ e := by
  simp only [cover?, Option.bind_eq_bind, Option.bind_eq_some_iff] at h
  obtain ⟨least, hleast, greatest, hgreatest, h⟩ := h
  split at h
  · cases h
  · cases h
    refine ⟨.inside (Bound.lowerEnd?_spec (fun _ => 0) low low' hleast).1
      (Bound.upperEnd?_spec (fun _ => 0) high high' hgreatest).1, fun env v holds => ?_⟩
    obtain ⟨-, left, left'⟩ := Bound.lowerEnd?_spec env low low' hleast
    obtain ⟨-, right, right'⟩ := Bound.upperEnd?_spec env high high' hgreatest
    simp only [Holds, Extent.Holds] at holds ⊢
    omega

theorem cover?_outside {lo hi lo' hi' : Bound} {equiv equiv' : IdSet}
    (proper : (Extent.outside lo hi).Proper ty) {e : Extent}
    (h : cover? ty ⟨.outside lo hi, equiv⟩ ⟨.outside lo' hi', equiv'⟩ = some e) :
    Covers ty ⟨.outside lo hi, equiv⟩ ⟨.outside lo' hi', equiv'⟩ e := by
  simp only [cover?] at h
  split at h
  · next same =>
      cases h
      simp only [Bool.and_eq_true, beq_iff_eq] at same
      cases Bound.eq_of_compare_equal same.1.1
      cases Bound.eq_of_compare_equal same.1.2
      exact ⟨proper, fun env v holds => holds.elim id id⟩
  · cases h

/-- The complement that is left when an interval lies in its values. -/
theorem covers_mixed {lo hi lo' hi' : Bound} {equiv equiv' : IdSet} (low : lo.IsLower ty)
    (high : hi.IsUpper ty) (proper : (Extent.outside lo' hi').Proper ty)
    (concrete : lo.isSymbolic = false ∧ hi.isSymbolic = false)
    (concrete' : lo'.isSymbolic = false ∧ hi'.isSymbolic = false)
    (first : Bound.inside? ty lo' lo hi = some false)
    (second : Bound.inside? ty lo lo' hi' = some false) :
    Covers ty ⟨.inside lo hi, equiv⟩ ⟨.outside lo' hi', equiv'⟩ (.outside lo' hi') := by
  refine ⟨proper, fun env v holds => ?_⟩
  rcases holds with holds | holds
  · cases proper with
    | outside hc hd order =>
        exact holds_of_not_overlaps low high concrete.1 concrete.2 hc first second holds
    | apartFrom n offset => cases concrete'.1
  · exact holds

theorem cover?_covers (ha : a.Proper ty) (hb : b.Proper ty) (boundedA : a.isBounded = true)
    (boundedB : b.isBounded = true) {e : Extent} (h : cover? ty a b = some e) :
    a.Covers ty b e := by
  obtain ⟨extentA, equivA⟩ := a
  obtain ⟨extentB, equivB⟩ := b
  cases extentA with
  | undefined | varying => cases boundedA
  | inside lo hi =>
      obtain ⟨low, high⟩ : lo.IsLower ty ∧ hi.IsUpper ty := by
        cases ha with
        | inside low high => exact ⟨low, high⟩
      cases extentB with
      | undefined | varying => cases boundedB
      | inside lo' hi' =>
          cases hb with
          | inside low' high' => exact cover?_inside low high low' high' h
      | outside lo' hi' =>
          simp only [cover?] at h
          split at h
          · cases h
          · next known =>
              cases h
              simp only [isSymbolic, Extent.isSymbolic, Extent.isBounded, Extent.min, Extent.max,
                overlaps, min, max, Bool.true_and, Bool.or_eq_true, bne_iff_ne, ne_eq, not_or,
                Bool.not_eq_true, Decidable.not_not] at known
              exact covers_mixed low high hb known.1.1 known.1.2 known.2.1 known.2.2
  | outside lo hi =>
      cases extentB with
      | undefined | varying => cases boundedB
      | outside lo' hi' => exact cover?_outside ha h
      | inside lo' hi' =>
          obtain ⟨low, high⟩ : lo'.IsLower ty ∧ hi'.IsUpper ty := by
            cases hb with
            | inside low high => exact ⟨low, high⟩
          simp only [cover?] at h
          split at h
          · cases h
          · next known =>
              cases h
              simp only [isSymbolic, Extent.isSymbolic, Extent.isBounded, Extent.min, Extent.max,
                overlaps, min, max, Bool.true_and, Bool.or_eq_true, bne_iff_ne, ne_eq, not_or,
                Bool.not_eq_true, Decidable.not_not] at known
              have covers : Covers ty ⟨.inside lo' hi', equivB⟩ ⟨.outside lo hi, equivA⟩
                  (.outside lo hi) :=
                covers_mixed low high ha known.1.2 known.1.1 known.2.2 known.2.1
              exact ⟨covers.1, fun env v either => covers.2 env v either.symm⟩

/-- A meet is proper and holds the values of both sides. -/
theorem meet_covers (ha : a.Proper ty) (hb : b.Proper ty) : a.Covers ty b (meet ty a b).extent := by
  unfold meet
  split
  · next undefined =>
      refine ⟨hb, fun env v holds => holds.resolve_left fun none => ?_⟩
      rw [Holds, undefined] at none
      exact none
  · next undefined _ =>
      refine ⟨ha, fun env v holds => holds.resolve_right fun none => ?_⟩
      rw [Holds, undefined] at none
      exact none
  · exact ⟨.varying, fun _ _ _ => trivial⟩
  · exact ⟨.varying, fun _ _ _ => trivial⟩
  · next notA knownA notB knownB =>
      split
      · next e cover =>
          rw [withEquiv_extent]
          exact cover?_covers ha hb (Extent.isBounded_of_ne notA knownA)
            (Extent.isBounded_of_ne notB knownB) cover
      · exact giveUp_covers ha hb

/-- Merged ranges hold the values of all of them. -/
theorem foldl_meet_covers {ranges : List ValueRange} {start : ValueRange} (hstart : start.Proper ty)
    (proper : ∀ vr ∈ ranges, vr.Proper ty) :
    (ranges.foldl (meet ty) start).Proper ty ∧ ∀ env v,
      start.Holds env ty v ∨ (∃ vr ∈ ranges, vr.Holds env ty v) →
        (ranges.foldl (meet ty) start).Holds env ty v := by
  induction ranges generalizing start with
  | nil =>
      refine ⟨hstart, ?_⟩
      rintro env v (holds | ⟨vr, hvr, -⟩)
      · exact holds
      · cases hvr
  | cons first rest ih =>
      obtain ⟨joined, covered⟩ := meet_covers hstart (proper first (List.mem_cons_self ..))
      obtain ⟨all, holds⟩ := ih joined fun vr hvr => proper vr (List.mem_cons_of_mem _ hvr)
      refine ⟨all, fun env v either => holds env v ?_⟩
      rcases either with either | ⟨vr, hvr, either⟩
      · exact .inl (covered env v (.inl either))
      · rcases List.mem_cons.mp hvr with rfl | hvr
        · exact .inl (covered env v (.inr either))
        · exact .inr ⟨vr, hvr, either⟩

end ValueRange

end RangeFlow
