import RangeFlow.Proofs.Intervals

/-! # Intersections

`intersect` looks at how the intervals of two extents lie to each other. What it finds is said once,
by `Extent.Position`; that the common values are proper, and that none is lost, is then shown for
each position. An infinity has a place of its own just outside the type, so that the order of
bounds without names is the order of their places.
-/

namespace RangeFlow

/-- A wide word holds the values of a type. -/
theorem Wide.check_of_fits {ty : ScalarType} {x : Int} (h : ty.fits x = true) :
    Wide.check x = some x := by
  have bounds := ScalarType.abs_lt_size h
  have small : ty.size ≤ (twoPow 64 : Nat) :=
    Int.ofNat_le.mpr (Nat.pow_le_pow_right (by decide) ty.precision_le)
  have wide : (twoPow 64 : Int) ≤ Wide.greatest ∧ Wide.least = -Wide.greatest - 1 := by decide
  simp only [Wide.check, Wide.fits, Bool.and_eq_true, decide_eq_true_eq, ite_eq_left_iff]
  omega

namespace Bound

variable {env : NameId → Int} {ty : ScalarType} {a b : Bound} {c v : Int}

/-- Where a bound stands among the numbers; an infinity stands just outside the type. -/
def place (env : NameId → Int) (ty : ScalarType) : Bound → Int
  | negInf => ty.minValue - 1
  | const c => c
  | symbolic n offset => env n + offset
  | posInf => ty.maxValue + 1

/-- The first bound is the second, or is known to be below it. -/
def AtMost (ty : ScalarType) (a b : Bound) : Prop := a = b ∨ less ty a b = true

@[simp] theorem place_const : (const c).place env ty = c := rfl

theorem not_isSymbolic_of_concrete? {x : Int} (h : a.concrete? ty = some x) :
    a.isSymbolic = false := by
  cases a with
  | symbolic => cases h
  | negInf | const | posInf => rfl

theorem not_isSymbolic_of_less (h : less ty a b = true) :
    a.isSymbolic = false ∧ b.isSymbolic = false := by
  have known : less? ty a b = some true := by simpa [less] using h
  unfold less? at known
  split at known
  · next hx hy => exact ⟨not_isSymbolic_of_concrete? hx, not_isSymbolic_of_concrete? hy⟩
  · split at known
    · next order => exact not_isSymbolic_of_compare (.inl order)
    · cases known
    · cases known
    · cases known
    · cases known

theorem less_iff_place (env : NameId → Int) (ha : a.Fits ty) (hb : b.Fits ty)
    (plainA : a.isSymbolic = false) (plainB : b.isSymbolic = false) :
    less ty a b = true ↔ a.place env ty < b.place env ty := by
  have least := ty.minValue_nonpos
  have greatest := ty.maxValue_nonneg
  cases a <;> cases b <;>
    simp_all [less, less?, concrete?, place, Fits, isSymbolic, ScalarType.fits_iff] <;> omega

theorem eq_iff_place (env : NameId → Int) (ha : a.Fits ty) (hb : b.Fits ty)
    (plainA : a.isSymbolic = false) (plainB : b.isSymbolic = false) :
    a = b ↔ a.place env ty = b.place env ty := by
  have least := ty.minValue_nonpos
  have greatest := ty.maxValue_nonneg
  cases a <;> cases b <;> simp_all [place, Fits, isSymbolic, ScalarType.fits_iff] <;> omega

theorem atMost_iff_place (env : NameId → Int) (ha : a.Fits ty) (hb : b.Fits ty)
    (plainA : a.isSymbolic = false) (plainB : b.isSymbolic = false) :
    a.AtMost ty b ↔ a.place env ty ≤ b.place env ty := by
  rw [AtMost, less_iff_place env ha hb plainA plainB, eq_iff_place env ha hb plainA plainB]
  omega

theorem atMost_or_less (ha : a.Fits ty) (hb : b.Fits ty) (plainA : a.isSymbolic = false)
    (plainB : b.isSymbolic = false) : a.AtMost ty b ∨ less ty b a = true := by
  rw [atMost_iff_place (fun _ => 0) ha hb plainA plainB,
    less_iff_place (fun _ => 0) hb ha plainB plainA]
  omega

theorem place_lt_of_less (env : NameId → Int) (ha : a.Fits ty) (hb : b.Fits ty)
    (h : less ty a b = true) : a.place env ty < b.place env ty := by
  obtain ⟨plainA, plainB⟩ := not_isSymbolic_of_less h
  exact (less_iff_place env ha hb plainA plainB).mp h

theorem AtMost.not_isSymbolic (h : a.AtMost ty b) (plain : a.isSymbolic = false) :
    b.isSymbolic = false := by
  rcases h with rfl | h
  · exact plain
  · exact (not_isSymbolic_of_less h).2

theorem AtMost.place_le (env : NameId → Int) (ha : a.Fits ty) (hb : b.Fits ty)
    (h : a.AtMost ty b) : a.place env ty ≤ b.place env ty := by
  rcases h with rfl | h
  · exact Int.le_refl _
  · exact Int.le_of_lt (place_lt_of_less env ha hb h)

theorem IsLower.reading_le_iff (h : a.IsLower ty) (hv : ty.fits v = true) :
    a.reading env ty ≤ v ↔ a.place env ty ≤ v := by
  rw [ScalarType.fits_iff] at hv
  cases a with
  | posInf => exact absurd rfl h.2
  | negInf =>
      simp only [reading, place]
      omega
  | const | symbolic => rfl

theorem IsUpper.le_reading_iff (h : a.IsUpper ty) (hv : ty.fits v = true) :
    v ≤ a.reading env ty ↔ v ≤ a.place env ty := by
  rw [ScalarType.fits_iff] at hv
  cases a with
  | negInf => exact absurd rfl h.2
  | posInf =>
      simp only [reading, place]
      omega
  | const | symbolic => rfl

end Bound

namespace ValueRange

variable {ty : ScalarType} {c d v : Int}

/-- The bound after a value below another value. -/
theorem plusOne_of_lt (hc : ty.fits c = true) (hv : ty.fits v = true) (h : c < v) :
    plusOne ty (.const c) = .const (c + 1) := by
  rw [ScalarType.fits_iff] at hc hv
  have fits : ty.fits (c + 1) = true := ScalarType.fits_iff.mpr ⟨by omega, by omega⟩
  simp [plusOne, Bound.concrete?, Wide.add?, Wide.check_of_fits fits, Option.filter,
    fits]

/-- The bound before a value above another value. -/
theorem minusOne_of_lt (hc : ty.fits c = true) (hv : ty.fits v = true) (h : v < c) :
    minusOne ty (.const c) = .const (c - 1) := by
  rw [ScalarType.fits_iff] at hc hv
  have fits : ty.fits (c - 1) = true := ScalarType.fits_iff.mpr ⟨by omega, by omega⟩
  simp [minusOne, Bound.concrete?, Wide.sub?, Wide.check_of_fits fits, Option.filter,
    fits]

theorem adjacent_iff (hd : ty.fits d = true) :
    adjacent (.const c) (.const d) = true ↔ c + 1 = d := by
  simp only [adjacent, Wide.add?, beq_iff_eq]
  constructor
  · intro h
    unfold Wide.check at h
    split at h
    · exact Option.some.inj h
    · cases h
  · rintro rfl
    exact Wide.check_of_fits hd

end ValueRange

namespace Extent

open ValueRange

variable {env : NameId → Int} {ty : ScalarType} {a b e : Extent} {v : Int}

theorem Proper.lower {lo hi : Bound} (h : (Extent.inside lo hi).Proper ty) : lo.IsLower ty := by
  cases h with
  | inside low high => exact low

theorem Proper.upper {lo hi : Bound} (h : (Extent.inside lo hi).Proper ty) : hi.IsUpper ty := by
  cases h with
  | inside low high => exact high

theorem Proper.ends_fit (h : e.Proper ty) : e.min.Fits ty ∧ e.max.Fits ty := by
  have proper : (ofExtent e).Proper ty := h
  exact ⟨proper.min_fits, proper.max_fits⟩

/-- How the intervals of two extents with ends lie to each other, with the extent that is taken for
    their common values. Only ends that mention names leave it open. -/
inductive Position (ty : ScalarType) (a b : Extent) : Extent → Prop where
  | same (min : a.min = b.min) (max : a.max = b.max) :
      Position ty a b (if a.kind = b.kind then a else .undefined)
  | apart (h : Bound.less ty a.max b.min = true ∨ Bound.less ty b.max a.min = true) :
      Position ty a b (commonOfApart ty a b)
  | around (min : a.min.AtMost ty b.min) (max : b.max.AtMost ty a.max)
      (differ : a.min = b.min → a.max ≠ b.max) : Position ty a b (commonOfNested ty a b)
  | within (min : b.min.AtMost ty a.min) (max : a.max.AtMost ty b.max)
      (differ : b.min = a.min → b.max ≠ a.max) : Position ty a b (commonOfNested ty b a)
  | before (min : Bound.less ty a.min b.min = true) (meets : b.min.AtMost ty a.max)
      (max : ¬ b.max.AtMost ty a.max) : Position ty a b (commonOfStaggered ty a b)
  | after (min : Bound.less ty b.min a.min = true) (meets : a.min.AtMost ty b.max)
      (max : ¬ a.max.AtMost ty b.max) : Position ty a b (commonOfStaggered ty b a)
  | unknown (named : a.isSymbolic = true ∨ b.isSymbolic = true) : Position ty a b a

section

variable (ha : a.Proper ty) (hb : b.Proper ty) (boundedA : a.isBounded = true)
  (boundedB : b.isBounded = true)

include ha hb boundedA boundedB

/-- Ends without names lie in one of the ways that `common` tells apart. -/
theorem isSymbolic_of_unplaced
    (meet : ¬ (Bound.less ty a.max b.min = true ∨ Bound.less ty b.max a.min = true))
    (around : ¬ (b.max.AtMost ty a.max ∧ a.min.AtMost ty b.min))
    (within : ¬ (a.max.AtMost ty b.max ∧ b.min.AtMost ty a.min))
    (before : ¬ (b.min.AtMost ty a.max ∧ Bound.less ty a.min b.min = true))
    (after : ¬ (a.min.AtMost ty b.max ∧ Bound.less ty b.min a.min = true)) :
    a.isSymbolic = true ∨ b.isSymbolic = true := by
  refine Classical.byContradiction fun plain => ?_
  simp only [not_or, Bool.not_eq_true] at plain
  obtain ⟨plainMin, plainMax⟩ := plain_ends boundedA plain.1
  obtain ⟨plainMin', plainMax'⟩ := plain_ends boundedB plain.2
  obtain ⟨fitsMin, fitsMax⟩ := ha.ends_fit
  obtain ⟨fitsMin', fitsMax'⟩ := hb.ends_fit
  have start : b.min.AtMost ty a.max :=
    (Bound.atMost_or_less fitsMin' fitsMax plainMin' plainMax).resolve_right fun h => meet (.inl h)
  have start' : a.min.AtMost ty b.max :=
    (Bound.atMost_or_less fitsMin fitsMax' plainMin plainMax').resolve_right fun h => meet (.inr h)
  have low : b.min.AtMost ty a.min :=
    (Bound.atMost_or_less fitsMin' fitsMin plainMin' plainMin).resolve_right fun h =>
      before ⟨start, h⟩
  have low' : a.min.AtMost ty b.min :=
    (Bound.atMost_or_less fitsMin fitsMin' plainMin plainMin').resolve_right fun h =>
      after ⟨start', h⟩
  rcases Bound.atMost_or_less fitsMax fitsMax' plainMax plainMax' with max | max
  · exact within ⟨max, low⟩
  · exact around ⟨.inr max, low'⟩

theorem common_position : Position ty a b (common ty a b) := by
  have swap : ∀ {x y : Bound}, x = y ∨ Bound.less ty y x = true → y.AtMost ty x :=
    fun h => h.imp_left Eq.symm
  -- the tests come in this order, and each position needs that those before it have failed
  simp only [common, Bool.and_eq_true, Bool.or_eq_true, decide_eq_true_eq]
  split
  · next h => exact .same h.1 h.2
  · next differ =>
      split
      · next h => exact .apart h
      · next meet =>
          split
          · next h => exact .around h.2 (swap h.1) fun min max => differ ⟨min, max⟩
          · next notAround =>
              have around : ¬ (b.max.AtMost ty a.max ∧ a.min.AtMost ty b.min) :=
                fun h => notAround ⟨h.1.imp_left Eq.symm, h.2⟩
              split
              · next h => exact .within (swap h.2) h.1 fun min max => differ ⟨min.symm, max.symm⟩
              · next notWithin =>
                  have within : ¬ (a.max.AtMost ty b.max ∧ b.min.AtMost ty a.min) :=
                    fun h => notWithin ⟨h.1, h.2.imp_left Eq.symm⟩
                  split
                  · next h => exact .before h.2 h.1.symm fun max => around ⟨max, .inr h.2⟩
                  · next before =>
                      split
                      · next h => exact .after h.2 h.1.symm fun max => within ⟨max, .inr h.2⟩
                      · next after =>
                          exact .unknown (isSymbolic_of_unplaced ha hb boundedA boundedB meet
                            around within (fun h => before ⟨h.1.symm, h.2⟩)
                            fun h => after ⟨h.1.symm, h.2⟩)

end

/-- The extent is proper and holds every value that both extents hold. -/
def Keeps (ty : ScalarType) (a b e : Extent) : Prop :=
  e.Proper ty ∧ ∀ env v, ty.fits v = true → a.Holds env ty v → b.Holds env ty v → e.Holds env ty v

theorem Keeps.symm (h : Keeps ty a b e) : Keeps ty b a e :=
  ⟨h.1, fun env v hv inB inA => h.2 env v hv inA inB⟩

theorem Keeps.left (ha : a.Proper ty) : Keeps ty a b a := ⟨ha, fun _ _ _ inA _ => inA⟩

theorem Keeps.right (hb : b.Proper ty) : Keeps ty a b b := ⟨hb, fun _ _ _ _ inB => inB⟩

theorem Proper.holds_inside_iff {lo hi : Bound} (h : (Extent.inside lo hi).Proper ty)
    (hv : ty.fits v = true) :
    (Extent.inside lo hi).Holds env ty v ↔ lo.place env ty ≤ v ∧ v ≤ hi.place env ty := by
  rw [Holds, h.lower.reading_le_iff hv, h.upper.le_reading_iff hv]

theorem Proper.holds_outside_iff {lo hi : Bound} (h : (Extent.outside lo hi).Proper ty) :
    (Extent.outside lo hi).Holds env ty v ↔ ¬ (lo.place env ty ≤ v ∧ v ≤ hi.place env ty) := by
  cases h <;> rfl

/-- Extents with the same ends that have a value in common are of the same kind. -/
theorem kind_eq_of_holds (min : a.min = b.min) (max : a.max = b.max) (boundedA : a.isBounded = true)
    (boundedB : b.isBounded = true) (inA : a.Holds env ty v) (inB : b.Holds env ty v) :
    a.kind = b.kind := by
  cases a with
  | undefined | varying => cases boundedA
  | inside lo hi =>
      cases b with
      | undefined | varying => cases boundedB
      | inside lo' hi' => rfl
      | outside lo' hi' =>
          cases min
          cases max
          exact absurd inA inB
  | outside lo hi =>
      cases b with
      | undefined | varying => cases boundedB
      | outside lo' hi' => rfl
      | inside lo' hi' =>
          cases min
          cases max
          exact absurd inB inA

theorem Proper.holds_canonical (h : e.Proper ty) (hv : ty.fits v = true)
    (holds : e.Holds env ty v) : (e.canonical ty).Holds env ty v := by
  cases h with
  | undefined => exact holds
  | varying => trivial
  | inside low high => exact holds_canonical_inside holds
  | outside low high order => exact (canonical_outside low high).2 order env v hv holds
  | apartFrom n offset => exact holds

theorem plusOne_isLower {bound : Bound} (h : bound.IsLower ty) :
    (plusOne ty bound).IsLower ty := by
  unfold plusOne
  split
  · next found =>
      obtain ⟨-, fits⟩ := Option.filter_eq_some_iff.mp found
      exact Bound.isLower_const.mpr fits
  · exact h

theorem minusOne_isUpper {bound : Bound} (h : bound.IsUpper ty) :
    (minusOne ty bound).IsUpper ty := by
  unfold minusOne
  split
  · next found =>
      obtain ⟨-, fits⟩ := Option.filter_eq_some_iff.mp found
      exact Bound.isUpper_const.mpr fits
  · exact h

/-- A complement whose ends mention no name leaves out the values from one constant to another. -/
theorem Proper.exists_consts {lo hi : Bound} (h : (Extent.outside lo hi).Proper ty)
    (plain : lo.isSymbolic = false ∨ hi.isSymbolic = false) : ∃ c d, lo = .const c ∧
      hi = .const d ∧ ty.fits c = true ∧ ty.fits d = true ∧ c ≤ d := by
  cases h with
  | outside low high order => exact ⟨_, _, rfl, rfl, low, high, order⟩
  | apartFrom n offset => rcases plain with h | h <;> cases h

/-- Two complements whose missing intervals meet: together they leave out one interval. -/
theorem outside_keeps {c d c' d' : Int} (hc : ty.fits c = true) (hd : ty.fits d' = true)
    (order : c ≤ c') (order' : c' ≤ d') (meets : c' ≤ d + 1) :
    Keeps ty (outside (.const c) (.const d)) (outside (.const c') (.const d'))
      (outside (.const c) (.const d')) := by
  refine ⟨.outside hc hd (by omega), fun env v _ inA inB => ?_⟩
  simp only [Holds, Bound.reading_const] at inA inB ⊢
  omega

/-- What is left of an interval that starts inside the missing interval. -/
theorem above_keeps {lo hi : Bound} {c d : Int} (h : (inside lo hi).Proper ty)
    (hd : ty.fits d = true) (starts : ∀ env, c ≤ lo.place env ty) :
    Keeps ty (inside lo hi) (outside (.const c) (.const d))
      (inside (plusOne ty (.const d)) hi) := by
  refine ⟨.inside (plusOne_isLower (Bound.isLower_const.mpr hd)) h.upper, ?_⟩
  intro env v hv inA inB
  have above : d < v := by
    have := starts env
    rw [h.holds_inside_iff hv] at inA
    simp only [Holds, Bound.reading_const] at inB
    omega
  rw [plusOne_of_lt hd hv above]
  exact ⟨above, inA.2⟩

/-- What is left of an interval that ends inside the missing interval. -/
theorem below_keeps {lo hi : Bound} {c d : Int} (h : (inside lo hi).Proper ty)
    (hc : ty.fits c = true) (ends : ∀ env, hi.place env ty ≤ d) :
    Keeps ty (inside lo hi) (outside (.const c) (.const d))
      (inside lo (minusOne ty (.const c))) := by
  refine ⟨.inside h.lower (minusOne_isUpper (Bound.isUpper_const.mpr hc)), ?_⟩
  intro env v hv inA inB
  have below : v < c := by
    have := ends env
    rw [h.holds_inside_iff hv] at inA
    simp only [Holds, Bound.reading_const] at inB
    omega
  rw [minusOne_of_lt hc hv below]
  exact ⟨inA.1, Int.le_sub_one_of_lt below⟩

variable (ha : a.Proper ty) (hb : b.Proper ty) (boundedA : a.isBounded = true)
  (boundedB : b.isBounded = true)

include ha hb boundedA boundedB

theorem commonOfApart_keeps
    (apart : Bound.less ty a.max b.min = true ∨ Bound.less ty b.max a.min = true) :
    Keeps ty a b (commonOfApart ty a b) := by
  cases a with
  | undefined | varying => cases boundedA
  | inside lo hi =>
      cases b with
      | undefined | varying => cases boundedB
      | outside lo' hi' => exact .left ha
      | inside lo' hi' =>
          refine ⟨.undefined, fun env v hv inA inB => ?_⟩
          rw [ha.holds_inside_iff hv] at inA
          rw [hb.holds_inside_iff hv] at inB
          rcases apart with below | above
          · have := Bound.place_lt_of_less env ha.upper.1 hb.lower.1 below
            exact absurd inA (by omega)
          · have := Bound.place_lt_of_less env hb.upper.1 ha.lower.1 above
            exact absurd inA (by omega)
  | outside lo hi =>
      cases b with
      | undefined | varying => cases boundedB
      | inside lo' hi' => exact .right hb
      | outside lo' hi' =>
          simp only [commonOfApart, Bool.and_eq_true]
          split
          · next next =>
              obtain ⟨plain, plain'⟩ := Bound.not_isSymbolic_of_less next.1
              obtain ⟨c, d, rfl, rfl, hc, hd, order⟩ := ha.exists_consts (.inr plain)
              obtain ⟨c', d', rfl, rfl, hc', hd', order'⟩ := hb.exists_consts (.inl plain')
              have follows := (adjacent_iff hc').mp next.2
              exact outside_keeps hc hd' (by omega) order' (by omega)
          · split
            · next next =>
                obtain ⟨plain', plain⟩ := Bound.not_isSymbolic_of_less next.1
                obtain ⟨c, d, rfl, rfl, hc, hd, order⟩ := ha.exists_consts (.inl plain)
                obtain ⟨c', d', rfl, rfl, hc', hd', order'⟩ := hb.exists_consts (.inr plain')
                have follows := (adjacent_iff hc).mp next.2
                exact (outside_keeps hc' hd (by omega) order (by omega)).symm
            · exact .left ha

theorem commonOfNested_keeps (min : a.min.AtMost ty b.min) (max : b.max.AtMost ty a.max)
    (differ : a.min = b.min → a.max ≠ b.max) : Keeps ty a b (commonOfNested ty a b) := by
  cases a with
  | undefined | varying => cases boundedA
  | inside lo hi =>
      cases b with
      | undefined | varying => cases boundedB
      | inside lo' hi' => exact .right hb
      | outside lo' hi' =>
          simp only [commonOfNested]
          split
          · next sameMin =>
              have below := max.resolve_left fun same => differ sameMin same.symm
              obtain ⟨plain, -⟩ := Bound.not_isSymbolic_of_less below
              obtain ⟨c, d, rfl, rfl, hc, hd, order⟩ := hb.exists_consts (.inr plain)
              subst sameMin
              exact above_keeps ha hd fun env => Int.le_refl c
          · next notSameMin =>
              have above := min.resolve_left notSameMin
              obtain ⟨-, plain⟩ := Bound.not_isSymbolic_of_less above
              obtain ⟨c, d, rfl, rfl, hc, hd, order⟩ := hb.exists_consts (.inl plain)
              split
              · next sameMax =>
                  subst sameMax
                  exact below_keeps ha hc fun env => Int.le_refl d
              · split
                · exact .right hb
                · exact .left ha
  | outside lo hi =>
      cases b with
      | undefined | varying => cases boundedB
      | outside lo' hi' => exact .left ha
      | inside lo' hi' =>
          refine ⟨.undefined, fun env v hv inA inB => ?_⟩
          rw [hb.holds_inside_iff hv] at inB
          rw [ha.holds_outside_iff] at inA
          have := min.place_le env ha.ends_fit.1 hb.ends_fit.1
          have := max.place_le env hb.ends_fit.2 ha.ends_fit.2
          exact inA (by simp only [Extent.min, Extent.max] at *; omega)

theorem commonOfStaggered_keeps (min : Bound.less ty a.min b.min = true)
    (meets : b.min.AtMost ty a.max) (max : ¬ b.max.AtMost ty a.max) :
    Keeps ty a b (commonOfStaggered ty a b) := by
  obtain ⟨plain, plain'⟩ := Bound.not_isSymbolic_of_less min
  cases a with
  | undefined | varying => cases boundedA
  | inside lo hi =>
      cases b with
      | undefined | varying => cases boundedB
      | inside lo' hi' =>
          exact ⟨.inside hb.lower ha.upper, fun env v _ inA inB => ⟨inB.1, inA.2⟩⟩
      | outside lo' hi' =>
          obtain ⟨c, d, rfl, rfl, hc, hd, order⟩ := hb.exists_consts (.inl plain')
          -- the intervals are not nested, so the first ends inside the missing interval
          have plainMax := meets.not_isSymbolic rfl
          have below :=
            (Bound.atMost_or_less hb.ends_fit.2 ha.ends_fit.2 rfl plainMax).resolve_left max
          exact below_keeps ha hc fun env =>
            Int.le_of_lt (Bound.place_lt_of_less env ha.ends_fit.2 hb.ends_fit.2 below)
  | outside lo hi =>
      obtain ⟨c, d, rfl, rfl, hc, hd, order⟩ := ha.exists_consts (.inl plain)
      cases b with
      | undefined | varying => cases boundedB
      | inside lo' hi' =>
          exact (above_keeps hb hd fun env =>
            Int.le_of_lt (Bound.place_lt_of_less env ha.ends_fit.1 hb.ends_fit.1 min)).symm
      | outside lo' hi' =>
          obtain ⟨c', d', rfl, rfl, hc', hd', order'⟩ := hb.exists_consts (.inl plain')
          have first := Bound.place_lt_of_less (fun _ => 0) ha.ends_fit.1 hb.ends_fit.1 min
          have second := meets.place_le (fun _ => 0) hb.ends_fit.1 ha.ends_fit.2
          simp only [Extent.min, Extent.max, Bound.place_const] at first second
          exact outside_keeps hc hd' (by omega) order' (by omega)

/-- No position loses a common value. -/
theorem Position.keeps (h : Position ty a b e) : Keeps ty a b e := by
  cases h with
  | same min max =>
      split
      · exact .left ha
      · next differ => exact ⟨.undefined, fun env v _ inA inB => differ
          (kind_eq_of_holds min max boundedA boundedB inA inB)⟩
  | apart h => exact commonOfApart_keeps ha hb boundedA boundedB h
  | around min max differ => exact commonOfNested_keeps ha hb boundedA boundedB min max differ
  | within min max differ =>
      exact (commonOfNested_keeps hb ha boundedB boundedA min max differ).symm
  | before min meets max => exact commonOfStaggered_keeps ha hb boundedA boundedB min meets max
  | after min meets max =>
      exact (commonOfStaggered_keeps hb ha boundedB boundedA min meets max).symm
  | unknown named => exact .left ha

end Extent

namespace ValueRange

variable {env : NameId → Int} {ty : ScalarType} {a b : ValueRange} {v : Int}

/-- An intersection is proper, and it holds every value that both ranges hold. -/
theorem intersect_keeps (ha : a.Proper ty) (hb : b.Proper ty) :
    Extent.Keeps ty a.extent b.extent (a.intersect ty b).extent := by
  unfold intersect
  split
  · next none =>
      refine ⟨.undefined, fun env v _ inA _ => ?_⟩
      rw [none] at inA
      exact inA
  · next none _ =>
      refine ⟨.undefined, fun env v _ _ inB => ?_⟩
      rw [none] at inB
      exact inB
  · exact .left ha
  · exact .right hb
  · next notA knownA notB knownB =>
      have boundedA := Extent.isBounded_of_ne notA knownA
      have boundedB := Extent.isBounded_of_ne notB knownB
      have kept := (Extent.common_position ha hb boundedA boundedB).keeps ha hb boundedA boundedB
      dsimp only
      split
      · exact .left ha
      · rw [withEquiv_extent]
        exact ⟨kept.1.canonical, fun env v hv inA inB =>
          kept.1.holds_canonical hv (kept.2 env v hv inA inB)⟩

theorem intersect_proper (ha : a.Proper ty) (hb : b.Proper ty) : (a.intersect ty b).Proper ty :=
  (intersect_keeps ha hb).1

theorem intersect_holds (ha : a.Proper ty) (hb : b.Proper ty) (hv : ty.fits v = true)
    (inA : a.Holds env ty v) (inB : b.Holds env ty v) : (a.intersect ty b).Holds env ty v :=
  (intersect_keeps ha hb).2 env v hv inA inB

end ValueRange

end RangeFlow
