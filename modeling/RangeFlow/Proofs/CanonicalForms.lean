import RangeFlow.Proofs.NormalForms
import RangeFlow.Proofs.Trimmed

/-! # The normal form of two numbers

A kind and two numbers describe a set of values, the interval from the one number up to the other or
all the rest; out of order they reach around the ends of the type. The normal form describes the
same set, unless it is empty. It is reached in one step: the ends are put in order, what touches an
end of the type is written as an interval, and the whole type is dropped, and none of these steps
undoes what an earlier one has settled.
-/

namespace RangeFlow

namespace RangeKind

/-- The kind that describes the values which this one leaves out. -/
def opposite : RangeKind → RangeKind
  | range => antiRange
  | antiRange => range
  | kind => kind

/-- The values of the type that a kind describes with two numbers: those from `lo` up to `hi`,
    through the ends of the type if `hi < lo`, or those that are not among them. -/
def described (ty : ScalarType) (lo hi : Int) : RangeKind → Set Int
  | undefined => ∅
  | range => {v | ty.fits v = true ∧ Between lo hi v}
  | antiRange => {v | ty.fits v = true ∧ ¬ Between lo hi v}
  | varying => {v | ty.fits v = true}

end RangeKind

theorem Bound.Fits.fits_reading {ty : ScalarType} {b : Bound} (h : b.Fits ty)
    (plain : b.isSymbolic = false) (env : NameId → Int) : ty.fits (b.reading env ty) = true :=
  ValueRange.fits_of_concrete? h (b.concrete?_eq_reading env plain)

namespace Extent

variable {env : NameId → Int} {ty : ScalarType} {e : Extent} {c d v : Int}

/-- The ends mention no names, are values of the type or infinities, and stand in order. -/
structure InOrder (ty : ScalarType) (e : Extent) : Prop where
  bounded : e.isBounded = true
  plain : e.isSymbolic = false
  low : e.min.Fits ty
  high : e.max.Fits ty
  order : e.min.reading (fun _ => 0) ty ≤ e.max.reading (fun _ => 0) ty

theorem inOrder_inside (low : ty.fits c = true) (high : ty.fits d = true) (order : c ≤ d) :
    (inside (.const c) (.const d)).InOrder ty :=
  ⟨rfl, rfl, low, high, order⟩

theorem inOrder_outside (low : ty.fits c = true) (high : ty.fits d = true) (order : c ≤ d) :
    (outside (.const c) (.const d)).InOrder ty :=
  ⟨rfl, rfl, low, high, order⟩

/-- Ends out of order are exchanged for those of the other kind, which are in order. -/
theorem ordered_inOrder (bounded : e.isBounded = true) (plain : e.isSymbolic = false)
    (low : e.min.Fits ty) (high : e.max.Fits ty) :
    e.ordered ty = varying ∨ (e.ordered ty).InOrder ty := by
  obtain ⟨plainLow, plainHigh⟩ := plain_ends bounded plain
  unfold ordered
  rw [Bound.concrete?_eq_reading (fun _ => 0) plainLow,
    Bound.concrete?_eq_reading (fun _ => 0) plainHigh]
  dsimp only
  split
  · next crossed =>
      split
      · split
        · exact .inl rfl
        · next apart =>
            have first := ScalarType.fits_iff.mp (low.fits_reading plainLow fun _ => 0)
            have last := ScalarType.fits_iff.mp (high.fits_reading plainHigh fun _ => 0)
            have next : ty.fits (e.max.reading (fun _ => 0) ty + 1) = true :=
              ScalarType.fits_iff.mpr ⟨by omega, by omega⟩
            have previous : ty.fits (e.min.reading (fun _ => 0) ty - 1) = true :=
              ScalarType.fits_iff.mpr ⟨by omega, by omega⟩
            right
            split
            · exact inOrder_outside next previous (by omega)
            · exact inOrder_inside next previous (by omega)
      · exact .inl rfl
  · next order => exact .inr ⟨bounded, plain, low, high, Int.not_lt.mp order⟩

theorem InOrder.preferRange (h : e.InOrder ty) :
    e.preferRange ty = varying ∨ (e.preferRange ty).InOrder ty := by
  cases e with
  | undefined | varying => cases h.bounded
  | inside lo hi => exact .inr h
  | outside lo hi =>
      obtain ⟨plainLow, plainHigh⟩ := plain_ends rfl h.plain
      have low := ScalarType.fits_iff.mp (h.low.fits_reading plainLow fun _ => 0)
      have high := ScalarType.fits_iff.mp (h.high.fits_reading plainHigh fun _ => 0)
      have written : Written (fun _ => 0) ty lo hi _ := preferRange_written plainLow plainHigh
      generalize (Extent.outside lo hi).preferRange ty = e at written ⊢
      simp only [Extent.min, Extent.max] at low high
      cases written with
      | nothing => exact .inl rfl
      | above least rest =>
          exact .inr (inOrder_inside (ScalarType.fits_iff.mpr ⟨by omega, by omega⟩)
            (fits_maxValue ty) (by omega))
      | below greatest rest =>
          exact .inr (inOrder_inside (fits_minValue ty)
            (ScalarType.fits_iff.mpr ⟨by omega, by omega⟩) (by omega))
      | kept => exact .inr h

theorem dropFull_eq (ty : ScalarType) (e : Extent) :
    e.dropFull ty = varying ∨ e.dropFull ty = e := by
  unfold dropFull
  split
  · split
    · exact .inl rfl
    · exact .inr rfl
  · exact .inr rfl

theorem canonical_of_isSymbolic (named : e.isSymbolic = true) : e.canonical ty = e := by
  cases e with
  | undefined | varying => rfl
  | inside lo hi | outside lo hi => exact if_pos named

theorem canonical_of_plain (bounded : e.isBounded = true) (plain : e.isSymbolic = false) :
    e.canonical ty = ((e.ordered ty).preferRange ty).dropFull ty := by
  cases e with
  | undefined | varying => cases bounded
  | inside lo hi | outside lo hi => exact if_neg (Bool.eq_false_iff.mp plain)

/-- A normal form is its own normal form. -/
theorem canonical_canonical (low : e.min.Fits ty) (high : e.max.Fits ty) :
    (e.canonical ty).canonical ty = e.canonical ty := by
  cases bounded : e.isBounded with
  | false =>
      cases e with
      | undefined | varying => rfl
      | inside | outside => cases bounded
  | true =>
      cases plain : e.isSymbolic with
      | true => rw [canonical_of_isSymbolic plain, canonical_of_isSymbolic plain]
      | false =>
          rw [canonical_of_plain bounded plain]
          rcases ordered_inOrder bounded plain low high with none | sorted
          · rw [none]
            rfl
          · rcases sorted.preferRange with none | settled
            · rw [none]
              rfl
            · rcases dropFull_eq ty ((e.ordered ty).preferRange ty) with none | kept
              · rw [none]
                rfl
              · rw [kept, canonical_of_le _ settled.bounded settled.plain settled.order,
                  preferRange_preferRange, kept]

theorem isMin_const_of_lt (above : ty.minValue < c) : (Bound.const c).isMin ty = false :=
  Bool.eq_false_iff.mpr fun least => Int.ne_of_gt above (isMin_const.mp least)

theorem isMax_const_of_lt (below : c < ty.maxValue) : (Bound.const c).isMax ty = false :=
  Bool.eq_false_iff.mpr fun greatest => Int.ne_of_lt below (isMax_const.mp greatest)

/-- An interval that passes through the ends of the type is written as the complement of the values
    between its ends. -/
theorem canonical_inside_crossed (low : ty.fits c = true) (high : ty.fits d = true)
    (crossed : d + 1 < c) :
    (inside (.const c) (.const d)).canonical ty = outside (.const (d + 1)) (.const (c - 1)) := by
  rw [ScalarType.fits_iff] at low high
  have first : (Bound.const (d + 1)).isMin ty = false := isMin_const_of_lt (by omega)
  have last : (Bound.const (c - 1)).isMax ty = false := isMax_const_of_lt (by omega)
  rw [canonical_inside_of_lt (by omega), if_neg (by omega)]
  simp [preferRange, first, last, dropFull]

/-- The complement of such an interval is written as the interval between its ends. -/
theorem canonical_outside_crossed (high : ty.fits d = true) (crossed : d + 1 < c) :
    (outside (.const c) (.const d)).canonical ty = inside (.const (d + 1)) (.const (c - 1)) := by
  rw [ScalarType.fits_iff] at high
  have first : (Bound.const (d + 1)).isMin ty = false := isMin_const_of_lt (by omega)
  rw [canonical_outside_of_lt (by omega), if_neg (by omega)]
  simp [dropFull, first]

theorem constBounds?_eq_reading (env : NameId → Int) (bounded : e.isBounded = true)
    (plain : e.isSymbolic = false) :
    e.constBounds? ty = some (e.min.reading env ty, e.max.reading env ty) := by
  obtain ⟨low, high⟩ := plain_ends bounded plain
  rw [constBounds?, if_pos bounded, Bound.concrete?_eq_reading env low,
    Bound.concrete?_eq_reading env high]
  rfl

/-- The test of a number sees the values of an extent without names. -/
theorem contains_iff_holds (env : NameId → Int) (plain : e.isSymbolic = false) :
    e.contains ty v = true ↔ e.Holds env ty v := by
  cases e with
  | undefined | varying => simp [contains, Holds]
  | inside lo hi | outside lo hi =>
      simp only [contains, constBounds?_eq_reading env rfl plain, Extent.min, Extent.max, Holds,
        decide_eq_true_eq, Bool.not_eq_true', decide_eq_false_iff_not]

theorem canonical_inside_touching (touching : c = d + 1) :
    (inside (.const c) (.const d)).canonical ty = varying := by
  rw [canonical_inside_of_lt (by omega), if_pos (by omega)]

theorem canonical_outside_touching (touching : c = d + 1) :
    (outside (.const c) (.const d)).canonical ty = varying := by
  rw [canonical_outside_of_lt (by omega), if_pos (by omega)]

theorem between_of_le (order : c ≤ d) : Between c d v ↔ c ≤ v ∧ v ≤ d := by
  rw [Between, if_pos order]

theorem between_of_lt (crossed : d < c) : Between c d v ↔ c ≤ v ∨ v ≤ d := by
  rw [Between, if_neg (by omega)]

/-- The normal form of two numbers holds the values that they describe, if there are any. -/
theorem values_canonical_described (env : NameId → Int) {kind : RangeKind}
    (low : ty.fits c = true) (high : ty.fits d = true)
    (some : (kind.described ty c d).Nonempty) :
    ((ofKind kind (.const c) (.const d)).canonical ty).values env ty = kind.described ty c d := by
  have positions : c ≤ d ∨ c = d + 1 ∨ d + 1 < c := by omega
  cases kind with
  | undefined => exact absurd some Set.not_nonempty_empty
  | varying => simp [ofKind, canonical, values, Holds, RangeKind.described]
  | range =>
      simp only [RangeKind.described, ofKind] at some ⊢
      rcases positions with order | touching | crossed
      · have proper : (inside (.const c) (.const d)).Proper ty :=
          .inside (Bound.isLower_const.mpr low) (Bound.isUpper_const.mpr high)
        simp only [between_of_le order] at some ⊢
        exact proper.values_canonical some
      · rw [canonical_inside_touching touching]
        refine Set.ext fun v => and_congr_right fun _ => iff_of_true trivial ?_
        rw [between_of_lt (by omega)]
        omega
      · rw [canonical_inside_crossed low high crossed]
        refine Set.ext fun v => and_congr_right fun _ => ?_
        rw [between_of_lt (by omega), Holds, Bound.reading_const, Bound.reading_const]
        omega
  | antiRange =>
      simp only [RangeKind.described, ofKind] at some ⊢
      rcases positions with order | touching | crossed
      · have proper : (outside (.const c) (.const d)).Proper ty := .outside low high order
        simp only [between_of_le order] at some ⊢
        exact proper.values_canonical some
      · obtain ⟨v, -, missing⟩ := some
        rw [between_of_lt (by omega)] at missing
        omega
      · rw [canonical_outside_crossed high crossed]
        refine Set.ext fun v => and_congr_right fun _ => ?_
        rw [between_of_lt (by omega), Holds, Bound.reading_const, Bound.reading_const]
        omega

/-- The normal form of two numbers gives no knowledge, or holds some values of the type and misses
    some. -/
theorem canonical_tight {kind : RangeKind} (ends : kind = .range ∨ kind = .antiRange)
    (low : ty.fits c = true) (high : ty.fits d = true) :
    (ofKind kind (.const c) (.const d)).canonical ty = varying ∨
      ((ofKind kind (.const c) (.const d)).canonical ty).Tight ty := by
  have start : (Bound.const c).PlainLower ty := ⟨low, nofun⟩
  have stop : (Bound.const d).PlainUpper ty := ⟨high, nofun⟩
  rcases ends with rfl | rfl
  · exact canonical_inside_tight start stop
  · exact canonical_outside_tight start stop

/-- Two numbers that describe nothing give no knowledge. -/
theorem canonical_of_described_empty {kind : RangeKind} (ends : kind = .range ∨ kind = .antiRange)
    (low : ty.fits c = true) (high : ty.fits d = true) (none : kind.described ty c d = ∅) :
    (ofKind kind (.const c) (.const d)).canonical ty = varying := by
  have missing : ∀ v, v ∉ kind.described ty c d := fun v => by simp [none]
  rcases ends with rfl | rfl
  · refine absurd ⟨low, ?_⟩ (missing c)
    unfold Between
    split <;> omega
  · have all : ∀ v, ty.fits v = true → Between c d v :=
      fun v hv => Classical.byContradiction fun apart => missing v ⟨hv, apart⟩
    rcases (by omega : c ≤ d ∨ c = d + 1 ∨ d + 1 < c) with order | touching | crossed
    · have first := (between_of_le order).mp (all _ (fits_minValue ty))
      have last := (between_of_le order).mp (all _ (fits_maxValue ty))
      rw [ScalarType.fits_iff] at low high
      have least : c = ty.minValue := by omega
      have greatest : d = ty.maxValue := by omega
      simp [ofKind, canonical_outside_of_le order, preferRange, isMin_const.mpr least,
        isMax_const.mpr greatest, dropFull]
    · exact canonical_outside_touching touching
    · rw [ScalarType.fits_iff] at low high
      have between := all (d + 1) (ScalarType.fits_iff.mpr ⟨by omega, by omega⟩)
      rw [between_of_lt (by omega)] at between
      omega

theorem canonical_eq_varying_iff {kind : RangeKind} (ends : kind = .range ∨ kind = .antiRange)
    (low : ty.fits c = true) (high : ty.fits d = true) :
    (ofKind kind (.const c) (.const d)).canonical ty = varying ↔
      kind.described ty c d = ∅ ∨ ∀ v, ty.fits v = true → v ∈ kind.described ty c d := by
  constructor
  · intro none
    refine (Set.eq_empty_or_nonempty _).imp id fun some v hv => ?_
    rw [← values_canonical_described (fun _ => 0) low high some, none]
    exact ⟨hv, trivial⟩
  · rintro (empty | all)
    · exact canonical_of_described_empty ends low high empty
    · refine (canonical_tight ends low high).resolve_right fun tight => ?_
      obtain ⟨v, hv, apart⟩ := tight.exists_missing fun _ => 0
      have some : (kind.described ty c d).Nonempty := ⟨c, all c low⟩
      have member := all v hv
      rw [← values_canonical_described (fun _ => 0) low high some] at member
      exact apart member.2

end Extent

namespace ValueRange

variable {ty : ScalarType}

theorem ofKind_ends (vr : ValueRange) : Extent.ofKind vr.kind vr.min vr.max = vr.extent := by
  obtain ⟨extent, equiv⟩ := vr
  cases extent <;> rfl

theorem canonical_ofKind_ends {kind : RangeKind} {a b : Bound} (low : a.Fits ty)
    (high : b.Fits ty) {vr : ValueRange} (written : canonical ty (.ofKind kind a b) = vr) :
    canonical ty (.ofKind vr.kind vr.min vr.max) = vr := by
  have ends : (Extent.ofKind kind a b).min.Fits ty ∧ (Extent.ofKind kind a b).max.Fits ty := by
    cases kind with
    | undefined | varying => exact ⟨ty.fits_zero, ty.fits_zero⟩
    | range | antiRange => exact ⟨low, high⟩
  subst written
  rw [ofKind_ends]
  exact congrArg ofExtent (Extent.canonical_canonical ends.1 ends.2)

theorem canonical_eq_varying {e : Extent} :
    canonical ty e = varying ↔ e.canonical ty = .varying := by
  simp [canonical, varying, ofExtent]

/-- The normal form of a kind with two values of a type. It contains exactly the values that these
    describe, unless there are none. It is `varying` exactly if they describe no value or every
    value. Values that reach around the ends of the type are written with the opposite kind, from
    whose ends the two values can be read off. Bringing the normal form of any two ends into normal
    form changes nothing. -/
theorem canonical_contains {kind : RangeKind} {lo hi : Int}
    (ends : kind = .range ∨ kind = .antiRange) (low : ty.fits lo = true)
    (high : ty.fits hi = true) :
    ((kind.described ty lo hi).Nonempty → ∀ v, ty.fits v = true →
      ((canonical ty (.ofKind kind (.const lo) (.const hi))).contains ty v = true ↔
        v ∈ kind.described ty lo hi)) ∧
    (kind.described ty lo hi = ∅ →
      canonical ty (.ofKind kind (.const lo) (.const hi)) = varying) ∧
    (canonical ty (.ofKind kind (.const lo) (.const hi)) = varying ↔
      kind.described ty lo hi = ∅ ∨ ∀ v, ty.fits v = true → v ∈ kind.described ty lo hi) ∧
    (hi + 1 < lo → canonical ty (.ofKind kind (.const lo) (.const hi)) =
      ofExtent (.ofKind kind.opposite (.const (hi + 1)) (.const (lo - 1)))) ∧
    ∀ (kind' : RangeKind) (a b : Bound) (vr : ValueRange), a.Fits ty → b.Fits ty →
      canonical ty (.ofKind kind' a b) = vr →
        canonical ty (.ofKind vr.kind vr.min vr.max) = vr := by
  have unknown := Extent.canonical_eq_varying_iff ends low high
  refine ⟨fun some v hv => ?_, fun none => ?_, ?_, fun crossed => ?_, ?_⟩
  · have plain :
        ((Extent.ofKind kind (.const lo) (.const hi)).canonical ty).isSymbolic = false := by
      rcases Extent.canonical_tight ends low high with none | tight
      · rw [none]
        rfl
      · exact tight.not_isSymbolic
    rw [contains, canonical, ofExtent, Extent.contains_iff_holds (fun _ => 0) plain,
      ← Extent.values_canonical_described (fun _ => 0) low high some]
    exact (and_iff_right hv).symm
  · exact canonical_eq_varying.mpr (unknown.mpr (.inl none))
  · exact canonical_eq_varying.trans unknown
  · rcases ends with rfl | rfl
    · exact congrArg ofExtent (Extent.canonical_inside_crossed low high crossed)
    · exact congrArg ofExtent (Extent.canonical_outside_crossed high crossed)
  · exact fun _ _ _ _ fitsA fitsB written => canonical_ofKind_ends fitsA fitsB written

/-- In eight bits without a sign, the values from 250 around to 3 are those that are not between 4
    and 249. -/
theorem canonical_contains_aroundZero :
    canonical (.int ⟨8, eight_bits⟩ .unsigned) (.ofKind .range (.const 250) (.const 3)) =
      anti (.const 4) (.const 249) ∧
    (canonical (.int ⟨8, eight_bits⟩ .unsigned) (.ofKind .range (.const 250) (.const 3))).contains
      (.int ⟨8, eight_bits⟩ .unsigned) 255 = true ∧
    ¬ 7 ∈ RangeKind.range.described (.int ⟨8, eight_bits⟩ .unsigned) 250 3 := by
  have around : 255 ∈ RangeKind.range.described (.int ⟨8, eight_bits⟩ .unsigned) 250 3 :=
    ⟨rfl, .inl (by decide)⟩
  obtain ⟨exact_, -, -, crossed, -⟩ :=
    @canonical_contains (.int ⟨8, eight_bits⟩ .unsigned) .range 250 3 (.inl rfl) rfl rfl
  refine ⟨crossed (by decide), (exact_ ⟨255, around⟩ 255 rfl).mpr around, fun member => ?_⟩
  have contained := (exact_ ⟨255, around⟩ 7 rfl).mpr member
  exact absurd contained (by decide)

end ValueRange

end RangeFlow
