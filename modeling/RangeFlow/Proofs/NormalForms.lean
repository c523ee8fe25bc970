import Mathlib.Data.Set.Basic
import RangeFlow.Proofs.Intersections

/-! # Normal forms

Extents without names that `canonical` has written: their ends are in order, and those that have
ends are neither empty nor the whole type. An extent that holds a value at all keeps its values
when it is brought into normal form.
-/

namespace RangeFlow

namespace Bound

variable {env : NameId → Int} {ty : ScalarType} {a b : Bound}

/-- The bound can be an end of a range without names: it is a value of the type, or an infinity if
    overflow is undefined. -/
def Plain (ty : ScalarType) : Bound → Prop
  | const c => ty.fits c = true
  | negInf | posInf => ty.overflowUndefined = true
  | symbolic _ _ => False

theorem Plain.not_isSymbolic (h : a.Plain ty) : a.isSymbolic = false := by
  cases a with
  | symbolic => exact h.elim
  | negInf | const | posInf => rfl

theorem Plain.fits (h : a.Plain ty) : a.Fits ty := by
  cases a with
  | const => exact h
  | negInf | symbolic | posInf => trivial

theorem Plain.fits_reading (h : a.Plain ty) (env : NameId → Int) :
    ty.fits (a.reading env ty) = true := by
  cases a with
  | symbolic => exact h.elim
  | const c => exact h
  | negInf => exact Extent.fits_minValue ty
  | posInf => exact Extent.fits_maxValue ty

/-- The lower end of an interval without names. -/
def PlainLower (ty : ScalarType) (b : Bound) : Prop := b.Plain ty ∧ b ≠ posInf

/-- The upper end of an interval without names. -/
def PlainUpper (ty : ScalarType) (b : Bound) : Prop := b.Plain ty ∧ b ≠ negInf

theorem PlainLower.isLower (h : a.PlainLower ty) : a.IsLower ty := ⟨h.1.fits, h.2⟩

theorem PlainUpper.isUpper (h : a.PlainUpper ty) : a.IsUpper ty := ⟨h.1.fits, h.2⟩

theorem PlainLower.atMost (env : NameId → Int) (low : a.PlainLower ty) (high : b.PlainUpper ty)
    (order : a.reading env ty ≤ b.reading env ty) : a.AtMost ty b := by
  rw [atMost_iff_place env low.1.fits high.1.fits low.1.not_isSymbolic high.1.not_isSymbolic]
  cases a <;> cases b <;> simp_all [PlainLower, PlainUpper, Plain, reading, place] <;> omega

/-- Only constants can be out of order. -/
theorem PlainLower.ordered_or_crossed (low : a.PlainLower ty) (high : b.PlainUpper ty) :
    (∀ env, a.reading env ty ≤ b.reading env ty) ∨
      ∃ c d, a = const c ∧ b = const d ∧ d < c := by
  cases a with
  | symbolic => exact low.1.elim
  | posInf => exact absurd rfl low.2
  | negInf => exact .inl fun env => (ScalarType.fits_iff.mp (high.1.fits_reading env)).1
  | const c =>
      cases b with
      | symbolic => exact high.1.elim
      | negInf => exact absurd rfl high.2
      | posInf => exact .inl fun env => (ScalarType.fits_iff.mp (low.1.fits_reading env)).2
      | const d =>
          by_cases order : c ≤ d
          · exact .inl fun _ => order
          · exact .inr ⟨c, d, rfl, rfl, Int.not_le.mp order⟩

end Bound

namespace Extent

open ValueRange

variable {env : NameId → Int} {ty : ScalarType} {a b e : Extent} {v : Int}

/-- The extent is written as `canonical` writes extents without names, with infinities only on the
    outer sides. -/
def Normal (ty : ScalarType) (e : Extent) : Prop :=
  ∃ kind lo hi, lo.PlainLower ty ∧ hi.PlainUpper ty ∧ e = (ofKind kind lo hi).canonical ty

/-- What an extent in normal form with ends satisfies: the ends are in order, and it is neither
    empty nor the whole type. -/
inductive Tight (ty : ScalarType) : Extent → Prop where
  | inside {lo hi : Bound} (low : lo.PlainLower ty) (high : hi.PlainUpper ty)
      (order : lo.AtMost ty hi) (part : (lo.isMin ty && hi.isMax ty) = false) :
      Tight ty (inside lo hi)
  | outside {c d : Int} (low : ty.fits c = true) (high : ty.fits d = true) (order : c ≤ d)
      (above : d < ty.maxValue) (below : ty.overflowUndefined = true → ty.minValue < c) :
      Tight ty (outside (.const c) (.const d))

theorem Tight.proper (h : e.Tight ty) : e.Proper ty := by
  cases h with
  | inside low high _ _ => exact .inside low.isLower high.isUpper
  | outside low high order _ _ => exact .outside low high order

theorem Tight.isBounded (h : e.Tight ty) : e.isBounded = true := by
  cases h <;> rfl

theorem plain_of_ends {lo hi : Bound} (low : lo.Plain ty) (high : hi.Plain ty) :
    (inside lo hi).isSymbolic = false ∧ (outside lo hi).isSymbolic = false := by
  simp [isSymbolic, isBounded, Extent.min, Extent.max, low.not_isSymbolic, high.not_isSymbolic]

theorem Tight.not_isSymbolic (h : e.Tight ty) : e.isSymbolic = false := by
  cases h with
  | inside low high _ _ => exact (plain_of_ends low.1 high.1).1
  | outside => rfl

theorem Tight.exists_consts {lo hi : Bound} (h : (Extent.outside lo hi).Tight ty) :
    ∃ c d, lo = .const c ∧ hi = .const d ∧ c ≤ d := by
  cases h with
  | outside _ _ order _ _ => exact ⟨_, _, rfl, rfl, order⟩

/-- The places of the ends of an interval in normal form. -/
theorem Tight.places {lo hi : Bound} (h : (Extent.inside lo hi).Tight ty) (env : NameId → Int) :
    lo.place env ty ≤ hi.place env ty ∧
      (ty.minValue - 1 ≤ lo.place env ty ∧ lo.place env ty ≤ ty.maxValue) ∧
      ty.minValue ≤ hi.place env ty ∧
      (ty.minValue < lo.place env ty ∨ hi.place env ty < ty.maxValue) ∧
      (lo.place env ty < ty.minValue → ty.overflowUndefined = true) := by
  cases h with
  | inside low high order part =>
      have ordered := order.place_le env low.1.fits high.1.fits
      cases lo <;> cases hi <;>
        simp_all [Bound.PlainLower, Bound.PlainUpper, Bound.Plain, Bound.place, Bound.isMin,
          Bound.isMax, Bound.concrete?, ScalarType.fits_iff] <;> omega

/-- How a complement of an interval is written: as an interval if the missing interval reaches an
    end of the type. -/
inductive Written (env : NameId → Int) (ty : ScalarType) (lo hi : Bound) : Extent → Prop where
  | nothing (least : lo.reading env ty = ty.minValue) (greatest : hi.reading env ty = ty.maxValue) :
      Written env ty lo hi varying
  | above (least : lo.reading env ty = ty.minValue) (rest : hi.reading env ty ≠ ty.maxValue) :
      Written env ty lo hi (inside (.const (hi.reading env ty + 1)) (.const ty.maxValue))
  | below (greatest : hi.reading env ty = ty.maxValue) (rest : lo.reading env ty ≠ ty.minValue) :
      Written env ty lo hi (inside (.const ty.minValue) (.const (lo.reading env ty - 1)))
  | kept (rest : hi.reading env ty ≠ ty.maxValue)
      (zero : lo.reading env ty = ty.minValue → ty.signed = false) :
      Written env ty lo hi (outside lo hi)

theorem preferRange_written {lo hi : Bound} (low : lo.isSymbolic = false)
    (high : hi.isSymbolic = false) :
    Written env ty lo hi ((outside lo hi).preferRange ty) := by
  have least : lo.isMin ty = true ↔ lo.reading env ty = ty.minValue := by
    simp [Bound.isMin, Bound.concrete?_eq_reading env low]
  have greatest : hi.isMax ty = true ↔ hi.reading env ty = ty.maxValue := by
    simp [Bound.isMax, Bound.concrete?_eq_reading env high]
  simp only [preferRange, Bound.concrete?_eq_reading env low, Bound.concrete?_eq_reading env high,
    Bool.and_eq_true, Bool.not_eq_true', Bool.and_eq_false_iff, least, greatest]
  split
  · next h => exact .nothing h.1 h.2
  · next part =>
      split
      · next h => exact .above h.1 fun full => part ⟨h.1, full⟩
      · next notAbove =>
          split
          · next h => exact .below h fun full => part ⟨full, h⟩
          · next h =>
              refine .kept h fun full => Bool.eq_false_iff.mpr fun signed => ?_
              exact notAbove ⟨full, .inl (by simp [signed])⟩

theorem dropFull_tight {lo hi : Bound} (low : lo.PlainLower ty) (high : hi.PlainUpper ty)
    (order : lo.AtMost ty hi) :
    (inside lo hi).dropFull ty = varying ∨ ((inside lo hi).dropFull ty).Tight ty := by
  rw [dropFull]
  split
  · exact .inl rfl
  · next part => exact .inr (.inside low high order (Bool.eq_false_iff.mpr part))

theorem dropFull_tight_const {c d : Int} (low : ty.fits c = true) (high : ty.fits d = true)
    (order : c ≤ d) : (inside (.const c) (.const d)).dropFull ty = varying ∨
      ((inside (.const c) (.const d)).dropFull ty).Tight ty := by
  have start : (Bound.const c).PlainLower ty := ⟨low, nofun⟩
  have stop : (Bound.const d).PlainUpper ty := ⟨high, nofun⟩
  exact dropFull_tight start stop (start.atMost (fun _ => 0) stop order)

theorem preferRange_tight {lo hi : Bound} (env : NameId → Int) (low : lo.PlainLower ty)
    (high : hi.PlainUpper ty) (order : lo.reading env ty ≤ hi.reading env ty) :
    ((outside lo hi).preferRange ty).dropFull ty = varying ∨
      (((outside lo hi).preferRange ty).dropFull ty).Tight ty := by
  have fits := low.1.fits_reading env
  have fits' := high.1.fits_reading env
  rw [ScalarType.fits_iff] at fits fits'
  have written : Written env ty lo hi _ :=
    preferRange_written low.1.not_isSymbolic high.1.not_isSymbolic
  generalize (outside lo hi).preferRange ty = e at written ⊢
  cases written with
  | nothing => exact .inl rfl
  | above least rest =>
      exact dropFull_tight_const (ScalarType.fits_iff.mpr ⟨by omega, by omega⟩)
        (fits_maxValue ty) (by omega)
  | below greatest rest =>
      exact dropFull_tight_const (fits_minValue ty)
        (ScalarType.fits_iff.mpr ⟨by omega, by omega⟩) (by omega)
  | kept rest zero =>
      -- zero alone may be missing at the lower end, but not where overflow is undefined
      have strict : ty.overflowUndefined = true → lo.reading env ty ≠ ty.minValue :=
        fun undefined least => by
          rw [ScalarType.signed_of_overflowUndefined undefined] at zero
          cases zero least
      cases lo with
      | symbolic => exact low.1.elim
      | posInf => exact absurd rfl low.2
      | negInf => exact absurd rfl (strict low.1)
      | const c =>
          cases hi with
          | symbolic => exact high.1.elim
          | negInf => exact absurd rfl high.2
          | posInf => exact absurd rfl rest
          | const d =>
              simp only [Bound.reading_const] at *
              exact .inr (.outside low.1 high.1 order (by omega) fun undefined => by
                have := strict undefined
                omega)

theorem canonical_inside_tight {lo hi : Bound} (low : lo.PlainLower ty) (high : hi.PlainUpper ty) :
    (inside lo hi).canonical ty = varying ∨ ((inside lo hi).canonical ty).Tight ty := by
  rcases low.ordered_or_crossed high with order | ⟨c, d, rfl, rfl, crossed⟩
  · rw [canonical_of_le (fun _ => 0) rfl (plain_of_ends low.1 high.1).1 (order _)]
    exact dropFull_tight low high (low.atMost (fun _ => 0) high (order _))
  · have fits := ScalarType.fits_iff.mp low.1
    have fits' := ScalarType.fits_iff.mp high.1
    rw [canonical_inside_of_lt crossed]
    split
    · exact .inl rfl
    · next apart =>
        have next : ty.fits (d + 1) = true := ScalarType.fits_iff.mpr ⟨by omega, by omega⟩
        have previous : ty.fits (c - 1) = true := ScalarType.fits_iff.mpr ⟨by omega, by omega⟩
        exact preferRange_tight (fun _ => 0) ⟨next, nofun⟩ ⟨previous, nofun⟩ (Int.not_lt.mp apart)

theorem canonical_outside_tight {lo hi : Bound} (low : lo.PlainLower ty) (high : hi.PlainUpper ty) :
    (outside lo hi).canonical ty = varying ∨ ((outside lo hi).canonical ty).Tight ty := by
  rcases low.ordered_or_crossed high with order | ⟨c, d, rfl, rfl, crossed⟩
  · rw [canonical_of_le (fun _ => 0) rfl (plain_of_ends low.1 high.1).2 (order _)]
    exact preferRange_tight (fun _ => 0) low high (order _)
  · have fits := ScalarType.fits_iff.mp low.1
    have fits' := ScalarType.fits_iff.mp high.1
    rw [canonical_outside_of_lt crossed]
    split
    · exact .inl rfl
    · exact dropFull_tight_const (ScalarType.fits_iff.mpr ⟨by omega, by omega⟩)
        (ScalarType.fits_iff.mpr ⟨by omega, by omega⟩) (by omega)

theorem Normal.cases (h : e.Normal ty) : e = undefined ∨ e = varying ∨ e.Tight ty := by
  obtain ⟨kind, lo, hi, low, high, rfl⟩ := h
  cases kind with
  | undefined => exact .inl rfl
  | varying => exact .inr (.inl rfl)
  | range => exact .inr (canonical_inside_tight low high)
  | antiRange => exact .inr (canonical_outside_tight low high)

theorem Normal.proper (h : e.Normal ty) : e.Proper ty := by
  rcases h.cases with rfl | rfl | tight
  · exact .undefined
  · exact .varying
  · exact tight.proper

theorem Normal.tight (h : e.Normal ty) (bounded : e.isBounded = true) : e.Tight ty := by
  rcases h.cases with rfl | rfl | tight
  · cases bounded
  · cases bounded
  · exact tight

/-- The values of the type among those an extent holds. -/
def values (env : NameId → Int) (ty : ScalarType) (e : Extent) : Set Int :=
  {v | ty.fits v = true ∧ e.Holds env ty v}

theorem Tight.values_nonempty (h : e.Tight ty) (env : NameId → Int) :
    (e.values env ty).Nonempty := by
  cases e with
  | undefined | varying => cases h
  | inside lo hi =>
      obtain ⟨order, low, high, -⟩ := h.places env
      by_cases least : ty.minValue ≤ lo.place env ty
      · have fits := ScalarType.fits_iff.mpr ⟨least, low.2⟩
        exact ⟨_, fits, (h.proper.holds_inside_iff fits).mpr ⟨Int.le_refl _, order⟩⟩
      · have fits := fits_minValue ty
        exact ⟨_, fits, (h.proper.holds_inside_iff fits).mpr ⟨by omega, high⟩⟩
  | outside lo hi =>
      cases h with
      | outside _ _ _ above _ =>
          refine ⟨ty.maxValue, fits_maxValue ty, ?_⟩
          simp only [Holds, Bound.reading_const]
          omega

theorem Tight.exists_missing (h : e.Tight ty) (env : NameId → Int) :
    ∃ v, ty.fits v = true ∧ ¬ e.Holds env ty v := by
  cases e with
  | undefined | varying => cases h
  | inside lo hi =>
      obtain ⟨-, -, -, part | part, -⟩ := h.places env
      · refine ⟨ty.minValue, fits_minValue ty, ?_⟩
        rw [h.proper.holds_inside_iff (fits_minValue ty)]
        omega
      · refine ⟨ty.maxValue, fits_maxValue ty, ?_⟩
        rw [h.proper.holds_inside_iff (fits_maxValue ty)]
        omega
  | outside lo hi =>
      cases h with
      | @outside c d low _ order _ _ =>
          exact ⟨c, low, fun apart => apart ⟨Int.le_refl c, order⟩⟩

theorem holds_of_dropFull (hv : ty.fits v = true) (h : (e.dropFull ty).Holds env ty v) :
    e.Holds env ty v := by
  unfold dropFull at h
  split at h
  · split at h
    · next full =>
        simp only [Bool.and_eq_true, Bound.isMin, Bound.isMax, beq_iff_eq] at full
        rw [Holds, reading_of_concrete? full.1, reading_of_concrete? full.2]
        exact ScalarType.fits_iff.mp hv
    · exact h
  · exact h

/-- On an extent that is not empty, the normal form holds the same values. -/
theorem Proper.values_canonical (h : e.Proper ty) (some : (e.values env ty).Nonempty) :
    (e.canonical ty).values env ty = e.values env ty := by
  refine Set.Subset.antisymm (fun v ⟨hv, holds⟩ => ⟨hv, ?_⟩)
    fun v ⟨hv, holds⟩ => ⟨hv, h.holds_canonical hv holds⟩
  obtain ⟨w, hw, inE⟩ := some
  cases h with
  | undefined => exact holds
  | varying => trivial
  | apartFrom => exact holds
  | @inside lo hi low high =>
      by_cases named : (Extent.inside lo hi).isSymbolic = true
      · simpa [Extent.canonical, named] using holds
      · have order := Int.le_trans inE.1 inE.2
        rw [canonical_of_le env rfl (Bool.eq_false_iff.mpr named) order] at holds
        exact holds_of_dropFull hv holds
  | @outside c d low high order =>
      rw [canonical_outside_of_le order] at holds
      replace holds := holds_of_dropFull hv holds
      have written : Written env ty (.const c) (.const d) _ := preferRange_written rfl rfl
      generalize (Extent.outside (.const c) (.const d)).preferRange ty = e at written holds
      rw [ScalarType.fits_iff] at hw
      cases written with
      | nothing least greatest =>
          simp only [Bound.reading_const] at least greatest
          subst least greatest
          exact absurd hw inE
      | above least rest =>
          simp only [Holds, Bound.reading_const] at holds ⊢
          omega
      | below greatest rest =>
          simp only [Holds, Bound.reading_const] at holds ⊢
          omega
      | kept rest zero => exact holds

end Extent

end RangeFlow
