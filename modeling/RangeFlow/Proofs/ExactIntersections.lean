import RangeFlow.Proofs.NormalForms

/-! # Exact intersections

On ranges in normal form without names an intersection is exact wherever one extent can say it:
the common values of two ranges are missed only if they are neither an interval nor the complement
of one, and then the answer is one of the two sides.
-/

namespace RangeFlow

namespace Extent

open ValueRange

variable {env : NameId → Int} {ty : ScalarType} {a b e : Extent} {v : Int}

theorem eq_of_ends (boundedA : a.isBounded = true) (boundedB : b.isBounded = true)
    (kind : a.kind = b.kind) (min : a.min = b.min) (max : a.max = b.max) : a = b := by
  cases a <;> cases b <;> simp_all [Extent.isBounded, Extent.kind, Extent.min, Extent.max]

/-- Some missing value lies between two values of the set, and some value of the set between two
    missing ones. -/
structure Scattered (ty : ScalarType) (s : Set Int) : Prop where
  gap : ∃ x y z, x < y ∧ y < z ∧ x ∈ s ∧ y ∉ s ∧ z ∈ s
  island : ∃ x y z, x < y ∧ y < z ∧ ty.fits x = true ∧ ty.fits z = true ∧ x ∉ s ∧ y ∈ s ∧ z ∉ s

/-- What an extent says of the common values of two extents: it holds none at all, or only those,
    or these are scattered and it holds what one of the two holds. -/
inductive Settled (env : NameId → Int) (ty : ScalarType) (a b : Extent) : Extent → Prop where
  | empty : Settled env ty a b undefined
  | exact {e : Extent} (narrow : e.values env ty ⊆ a.values env ty ∩ b.values env ty)
      (some : (e.values env ty).Nonempty) : Settled env ty a b e
  | scattered {e : Extent}
      (one : e.values env ty = a.values env ty ∨ e.values env ty = b.values env ty)
      (h : Scattered ty (a.values env ty ∩ b.values env ty)) : Settled env ty a b e

theorem Settled.symm (h : Settled env ty a b e) : Settled env ty b a e := by
  cases h with
  | empty => exact .empty
  | exact narrow some => exact .exact (Set.inter_comm _ _ ▸ narrow) some
  | scattered one h => exact .scattered one.symm (Set.inter_comm _ _ ▸ h)

theorem Settled.left (ha : a.Tight ty)
    (h : ∀ v, ty.fits v = true → a.Holds env ty v → b.Holds env ty v) : Settled env ty a b a :=
  .exact (fun v ⟨hv, holds⟩ => ⟨⟨hv, holds⟩, hv, h v hv holds⟩) (ha.values_nonempty env)

theorem Settled.right (hb : b.Tight ty)
    (h : ∀ v, ty.fits v = true → b.Holds env ty v → a.Holds env ty v) : Settled env ty a b b :=
  .symm (.left hb h)

section

variable {lo hi : Bound} {c d c' d' : Int}

theorem mem_outside_iff : v ∈ (outside (.const c) (.const d)).values env ty ↔
    (ty.minValue ≤ v ∧ v ≤ ty.maxValue) ∧ ¬ (c ≤ v ∧ v ≤ d) := by
  rw [← ScalarType.fits_iff]
  rfl

theorem Proper.mem_inside_iff (h : (Extent.inside lo hi).Proper ty) :
    v ∈ (Extent.inside lo hi).values env ty ↔
      (ty.minValue ≤ v ∧ v ≤ ty.maxValue) ∧ lo.place env ty ≤ v ∧ v ≤ hi.place env ty := by
  rw [← ScalarType.fits_iff]
  exact and_congr_right fun hv => h.holds_inside_iff hv

/-- An interval beside the missing interval of a complement. -/
theorem settled_of_beside {lo' hi' : Bound} (ha : (inside lo hi).Tight ty)
    (hb : (outside lo' hi').Tight ty)
    (apart : hi.place env ty < lo'.place env ty ∨ hi'.place env ty < lo.place env ty) :
    Settled env ty (inside lo hi) (outside lo' hi') (inside lo hi) := by
  refine .left ha fun v hv holds => ?_
  rw [ha.proper.holds_inside_iff hv] at holds
  rw [hb.proper.holds_outside_iff]
  omega

/-- Two missing intervals with a value between them. -/
theorem scattered_of_apart (ha : (outside (.const c) (.const d)).Tight ty)
    (hb : (outside (.const c') (.const d')).Tight ty) (apart : d + 1 < c') :
    Scattered ty ((outside (.const c) (.const d)).values env ty ∩
      (outside (.const c') (.const d')).values env ty) := by
  cases ha with
  | outside low high order above below =>
      cases hb with
      | outside low' high' order' above' below' =>
          have := ScalarType.fits_iff.mp low
          refine ⟨⟨d + 1, c', d' + 1, ?_⟩, ⟨c, d + 1, c', ?_⟩⟩
          · simp only [Set.mem_inter_iff, mem_outside_iff]
            omega
          · simp only [Set.mem_inter_iff, mem_outside_iff, ScalarType.fits_iff]
            omega

/-- What starts before a missing interval leaves a value of the type before it. -/
theorem minValue_lt_of_place_lt (ha : (inside lo hi).Tight ty)
    (hb : (outside (.const c) (.const d)).Tight ty) (low : lo.place env ty < c) :
    ty.minValue < c := by
  obtain ⟨-, -, -, -, strict⟩ := ha.places env
  cases hb with
  | outside _ _ _ _ below =>
      by_cases least : lo.place env ty < ty.minValue
      · exact below (strict least)
      · omega

/-- A missing interval in the middle of an interval. -/
theorem scattered_of_middle (ha : (inside lo hi).Tight ty)
    (hb : (outside (.const c) (.const d)).Tight ty) (low : lo.place env ty < c)
    (high : d < hi.place env ty) : Scattered ty
      ((inside lo hi).values env ty ∩ (outside (.const c) (.const d)).values env ty) := by
  obtain ⟨-, -, -, part, -⟩ := ha.places env
  have room := minValue_lt_of_place_lt ha hb low
  cases hb with
  | outside fits fits' order above below =>
      refine ⟨⟨c - 1, c, d + 1, ?_⟩, ?_⟩
      · simp only [Set.mem_inter_iff, ha.proper.mem_inside_iff, mem_outside_iff]
        omega
      · rcases part with part | part
        · refine ⟨ty.minValue, c - 1, c, ?_⟩
          simp only [Set.mem_inter_iff, ha.proper.mem_inside_iff, mem_outside_iff,
            ScalarType.fits_iff]
          omega
        · refine ⟨c, d + 1, ty.maxValue, ?_⟩
          simp only [Set.mem_inter_iff, ha.proper.mem_inside_iff, mem_outside_iff,
            ScalarType.fits_iff]
          omega

/-- Missing intervals that make one. -/
theorem settled_of_joined (hb : (outside (.const c') (.const d')).Tight ty) (low : c ≤ c')
    (high : d ≤ d') : Settled env ty (outside (.const c) (.const d))
      (outside (.const c') (.const d')) (outside (.const c) (.const d')) := by
  cases hb with
  | outside _ _ order above _ =>
      have values := ty.minValue_lt_maxValue
      refine .exact (fun v holds => ?_) ⟨ty.maxValue, ?_⟩
      · rw [mem_outside_iff] at holds
        rw [Set.mem_inter_iff, mem_outside_iff, mem_outside_iff]
        omega
      · rw [mem_outside_iff]
        omega

/-- The part of an interval above a missing interval. -/
theorem settled_above (ha : (inside lo hi).Tight ty)
    (hb : (outside (.const c) (.const d)).Tight ty) (low : lo.place env ty ≤ d + 1)
    (high : d < hi.place env ty) : Settled env ty (inside lo hi) (outside (.const c) (.const d))
      (inside (plusOne ty (.const d)) hi) := by
  cases hb with
  | outside _ fits order above _ =>
      rw [plusOne_of_lt fits (fits_maxValue ty) above]
      rw [ScalarType.fits_iff] at fits
      have next : ty.fits (d + 1) = true := ScalarType.fits_iff.mpr ⟨by omega, by omega⟩
      have proper : (inside (.const (d + 1)) hi).Proper ty :=
        .inside (Bound.isLower_const.mpr next) ha.proper.upper
      refine .exact (fun v holds => ?_)
        ⟨d + 1, next, (proper.holds_inside_iff next).mpr ⟨Int.le_refl _, high⟩⟩
      rw [proper.mem_inside_iff, Bound.place_const] at holds
      rw [Set.mem_inter_iff, ha.proper.mem_inside_iff, mem_outside_iff]
      omega

/-- The part of an interval below a missing interval. -/
theorem settled_below (ha : (inside lo hi).Tight ty)
    (hb : (outside (.const c) (.const d)).Tight ty) (low : lo.place env ty < c)
    (high : c ≤ hi.place env ty + 1) : Settled env ty (inside lo hi)
      (outside (.const c) (.const d)) (inside lo (minusOne ty (.const c))) := by
  have room := minValue_lt_of_place_lt ha hb low
  cases hb with
  | outside fits _ order _ _ =>
      rw [minusOne_of_lt fits (fits_minValue ty) room]
      rw [ScalarType.fits_iff] at fits
      have previous : ty.fits (c - 1) = true := ScalarType.fits_iff.mpr ⟨by omega, by omega⟩
      have proper : (inside lo (.const (c - 1))).Proper ty :=
        .inside ha.proper.lower (Bound.isUpper_const.mpr previous)
      refine .exact (fun v holds => ?_) ⟨c - 1, previous,
        (proper.holds_inside_iff previous).mpr ⟨Int.le_sub_one_of_lt low, Int.le_refl _⟩⟩
      rw [proper.mem_inside_iff, Bound.place_const] at holds
      rw [Set.mem_inter_iff, ha.proper.mem_inside_iff, mem_outside_iff]
      omega

end

variable (ha : a.Tight ty) (hb : b.Tight ty)

include ha hb

theorem commonOfApart_settled
    (h : Bound.less ty a.max b.min = true ∨ Bound.less ty b.max a.min = true) :
    Settled env ty a b (commonOfApart ty a b) := by
  have apart : a.max.place env ty < b.min.place env ty ∨ b.max.place env ty < a.min.place env ty :=
    h.imp (Bound.place_lt_of_less env ha.proper.ends_fit.2 hb.proper.ends_fit.1)
      (Bound.place_lt_of_less env hb.proper.ends_fit.2 ha.proper.ends_fit.1)
  cases a with
  | undefined | varying => cases ha
  | inside lo hi =>
      cases b with
      | undefined | varying => cases hb
      | inside lo' hi' => exact .empty
      | outside lo' hi' => exact settled_of_beside ha hb apart
  | outside lo hi =>
      obtain ⟨c, d, rfl, rfl, order⟩ := ha.exists_consts
      cases b with
      | undefined | varying => cases hb
      | inside lo' hi' => exact (settled_of_beside hb ha apart.symm).symm
      | outside lo' hi' =>
          obtain ⟨c', d', rfl, rfl, order'⟩ := hb.exists_consts
          have follows := adjacent_iff (c := d) hb.proper.ends_fit.1
          have follows' := adjacent_iff (c := d') ha.proper.ends_fit.1
          simp only [Extent.min, Extent.max, Bound.place_const] at apart
          simp only [commonOfApart, Bool.and_eq_true]
          split
          · next joined =>
              have := follows.mp joined.2
              exact settled_of_joined hb (by omega) (by omega)
          · next notJoined =>
              split
              · next joined =>
                  have := follows'.mp joined.2
                  exact (settled_of_joined ha (by omega) (by omega)).symm
              · next notJoined' =>
                  refine .scattered (.inl rfl) ?_
                  rcases h with below | above
                  · have order : d < c' :=
                      Bound.place_lt_of_less env ha.proper.ends_fit.2 hb.proper.ends_fit.1 below
                    have := mt follows.mpr fun next => notJoined ⟨below, next⟩
                    exact scattered_of_apart ha hb (by omega)
                  · have order : d' < c :=
                      Bound.place_lt_of_less env hb.proper.ends_fit.2 ha.proper.ends_fit.1 above
                    have := mt follows'.mpr fun next => notJoined' ⟨above, next⟩
                    exact Set.inter_comm _ _ ▸ scattered_of_apart hb ha (by omega)

theorem commonOfNested_settled (min : a.min.AtMost ty b.min) (max : b.max.AtMost ty a.max)
    (differ : a.min = b.min → a.max ≠ b.max) : Settled env ty a b (commonOfNested ty a b) := by
  have start := min.place_le env ha.proper.ends_fit.1 hb.proper.ends_fit.1
  have stop := max.place_le env hb.proper.ends_fit.2 ha.proper.ends_fit.2
  cases a with
  | undefined | varying => cases ha
  | inside lo hi =>
      cases b with
      | undefined | varying => cases hb
      | inside lo' hi' =>
          refine .right hb fun v hv holds => ?_
          rw [hb.proper.holds_inside_iff hv] at holds
          exact (ha.proper.holds_inside_iff hv).mpr
            ⟨Int.le_trans start holds.1, Int.le_trans holds.2 stop⟩
      | outside lo' hi' =>
          obtain ⟨c, d, rfl, rfl, order⟩ := hb.exists_consts
          simp only [commonOfNested]
          split
          · next sameMin =>
              have above := max.resolve_left fun same => differ sameMin same.symm
              have high :=
                Bound.place_lt_of_less env hb.proper.ends_fit.2 ha.proper.ends_fit.2 above
              subst sameMin
              exact settled_above ha hb (Int.le_add_one order) high
          · next notSameMin =>
              have low := Bound.place_lt_of_less env ha.proper.ends_fit.1 hb.proper.ends_fit.1
                (min.resolve_left notSameMin)
              split
              · next sameMax =>
                  subst sameMax
                  exact settled_below ha hb low (Int.le_add_one order)
              · next notSameMax =>
                  have high := Bound.place_lt_of_less env hb.proper.ends_fit.2
                    ha.proper.ends_fit.2 (max.resolve_left (Ne.symm notSameMax))
                  split
                  · next full =>
                      -- an interval in normal form is not the whole type
                      cases ha with
                      | inside _ _ _ part =>
                          rw [part] at full
                          cases full
                  · exact .scattered (.inl rfl) (scattered_of_middle ha hb low high)
  | outside lo hi =>
      obtain ⟨c, d, rfl, rfl, order⟩ := ha.exists_consts
      cases b with
      | undefined | varying => cases hb
      | inside lo' hi' => exact .empty
      | outside lo' hi' =>
          obtain ⟨c', d', rfl, rfl, order'⟩ := hb.exists_consts
          refine .left ha fun v hv holds => ?_
          simp only [Extent.min, Extent.max, Bound.place_const] at start stop
          simp only [Holds, Bound.reading_const] at holds ⊢
          omega

theorem commonOfStaggered_settled (min : Bound.less ty a.min b.min = true)
    (meets : b.min.AtMost ty a.max) (max : ¬ b.max.AtMost ty a.max) :
    Settled env ty a b (commonOfStaggered ty a b) := by
  obtain ⟨fitsMin, fitsMax⟩ := ha.proper.ends_fit
  obtain ⟨fitsMin', fitsMax'⟩ := hb.proper.ends_fit
  obtain ⟨-, plain⟩ := plain_ends ha.isBounded ha.not_isSymbolic
  obtain ⟨-, plain'⟩ := plain_ends hb.isBounded hb.not_isSymbolic
  have start := Bound.place_lt_of_less env fitsMin fitsMin' min
  have stop := Bound.place_lt_of_less env fitsMax fitsMax'
    ((Bound.atMost_or_less fitsMax' fitsMax plain' plain).resolve_left max)
  have overlap := meets.place_le env fitsMin' fitsMax
  cases a with
  | undefined | varying => cases ha
  | inside lo hi =>
      cases b with
      | undefined | varying => cases hb
      | inside lo' hi' =>
          obtain ⟨-, least, -⟩ := ha.places env
          obtain ⟨-, greatest, -⟩ := hb.places env
          simp only [Extent.min, Extent.max] at start stop overlap
          have proper : (inside lo' hi).Proper ty := .inside hb.proper.lower ha.proper.upper
          have fits := ScalarType.fits_iff.mpr ⟨by omega, greatest.2⟩
          refine .exact (fun v holds => ?_)
            ⟨_, fits, (proper.holds_inside_iff fits).mpr ⟨Int.le_refl _, overlap⟩⟩
          have holds := proper.mem_inside_iff.mp holds
          rw [Set.mem_inter_iff, ha.proper.mem_inside_iff, hb.proper.mem_inside_iff]
          omega
      | outside lo' hi' =>
          obtain ⟨c, d, rfl, rfl, order⟩ := hb.exists_consts
          exact settled_below ha hb start (Int.le_add_one overlap)
  | outside lo hi =>
      obtain ⟨c, d, rfl, rfl, order⟩ := ha.exists_consts
      cases b with
      | undefined | varying => cases hb
      | inside lo' hi' => exact (settled_above hb ha (Int.le_add_one overlap) stop).symm
      | outside lo' hi' =>
          obtain ⟨c', d', rfl, rfl, order'⟩ := hb.exists_consts
          exact settled_of_joined hb (Int.le_of_lt start) (Int.le_of_lt stop)

/-- Every position settles the common values of two extents in normal form. -/
theorem Position.settled (h : Position ty a b e) : Settled env ty a b e := by
  cases h with
  | same min max =>
      split
      · next kind =>
          have same := eq_of_ends ha.isBounded hb.isBounded kind min max
          exact .left ha fun v hv holds => same ▸ holds
      · exact .empty
  | apart h => exact commonOfApart_settled ha hb h
  | around min max differ => exact commonOfNested_settled ha hb min max differ
  | within min max differ => exact (commonOfNested_settled hb ha min max differ).symm
  | before min meets max => exact commonOfStaggered_settled ha hb min meets max
  | after min meets max => exact (commonOfStaggered_settled hb ha min meets max).symm
  | unknown named =>
      rw [ha.not_isSymbolic, hb.not_isSymbolic] at named
      simp at named

omit ha hb

/-- The normal form settles what the extent settles. -/
theorem Settled.canonical (h : Settled env ty a b e) (proper : e.Proper ty) :
    Settled env ty a b (e.canonical ty) := by
  cases h with
  | empty => exact .empty
  | exact narrow some =>
      have same := proper.values_canonical some
      exact .exact (same ▸ narrow) (same ▸ some)
  | scattered one h =>
      obtain ⟨x, y, z, -, -, inX, -⟩ := h.gap
      have some : (e.values env ty).Nonempty := by
        rcases one with one | one
        · exact ⟨x, one ▸ inX.1⟩
        · exact ⟨x, one ▸ inX.2⟩
      exact .scattered (proper.values_canonical some ▸ one) h

theorem Settled.eq_or_scattered (h : Settled env ty a b e)
    (kept : a.values env ty ∩ b.values env ty ⊆ e.values env ty) :
    e.values env ty = a.values env ty ∩ b.values env ty ∨
      (e.values env ty = a.values env ty ∨ e.values env ty = b.values env ty) ∧
        Scattered ty (a.values env ty ∩ b.values env ty) := by
  cases h with
  | empty => exact .inl (Set.Subset.antisymm (fun v holds => holds.2.elim) kept)
  | exact narrow some => exact .inl (Set.Subset.antisymm narrow kept)
  | scattered one h => exact .inr ⟨one, h⟩

theorem Settled.eq_undefined (h : Settled env ty a b e)
    (none : a.values env ty ∩ b.values env ty = ∅) : e = undefined := by
  cases h with
  | empty => rfl
  | exact narrow some =>
      obtain ⟨v, holds⟩ := some
      exact absurd (none ▸ narrow holds) (Set.notMem_empty v)
  | scattered one h =>
      obtain ⟨x, y, z, -, -, inX, -⟩ := h.gap
      exact absurd (none ▸ inX) (Set.notMem_empty x)

/-- Extents with ends do not settle their common values by giving up. -/
theorem Settled.ne_varying (h : Settled env ty a b e) (ha : a.Tight ty) (hb : b.Tight ty) :
    e ≠ varying := by
  rintro rfl
  obtain ⟨x, hx, notX⟩ := ha.exists_missing env
  obtain ⟨y, hy, notY⟩ := hb.exists_missing env
  have all : ∀ z, ty.fits z = true → z ∈ varying.values env ty := fun z hz => ⟨hz, trivial⟩
  cases h with
  | exact narrow some => exact notX (narrow (all x hx)).1.2
  | scattered one h =>
      rcases one with one | one
      · exact notX (one ▸ all x hx : x ∈ a.values env ty).2
      · exact notY (one ▸ all y hy : y ∈ b.values env ty).2

end Extent

namespace ValueRange

variable {env : NameId → Int} {ty : ScalarType} {a b : ValueRange}

/-- The values of the type among those a range holds. -/
def values (env : NameId → Int) (ty : ScalarType) (vr : ValueRange) : Set Int :=
  vr.extent.values env ty

/-- One extent can say it: the set is an interval of values of the type, or all values of the type
    but those of an interval. -/
def Expressible (ty : ScalarType) (s : Set Int) : Prop :=
  ∃ lo hi : Int, s = {v | ty.fits v = true ∧ (lo ≤ v ∧ v ≤ hi)} ∨
    s = {v | ty.fits v = true ∧ ¬ (lo ≤ v ∧ v ≤ hi)}

theorem expressible_values (env : NameId → Int) (ty : ScalarType) (e : Extent) :
    Expressible ty (e.values env ty) := by
  cases e with
  | inside lo hi => exact ⟨_, _, .inl rfl⟩
  | outside lo hi => exact ⟨_, _, .inr rfl⟩
  | undefined =>
      refine ⟨1, 0, .inl (Set.ext fun v => and_congr_right fun _ => ?_)⟩
      exact ⟨False.elim, fun within => by omega⟩
  | varying =>
      refine ⟨1, 0, .inr (Set.ext fun v => and_congr_right fun _ => ?_)⟩
      exact ⟨fun _ within => by omega, fun _ => trivial⟩

theorem not_expressible_of_scattered {s : Set Int} (h : Extent.Scattered ty s) :
    ¬ Expressible ty s := by
  rintro ⟨lo, hi, rfl | rfl⟩
  · obtain ⟨x, y, z, xy, yz, ⟨fits, low, _⟩, notY, ⟨fits', _, high⟩⟩ := h.gap
    rw [ScalarType.fits_iff] at fits fits'
    exact notY ⟨ScalarType.fits_iff.mpr ⟨by omega, by omega⟩, by omega, by omega⟩
  · obtain ⟨x, y, z, xy, yz, fits, fits', notX, ⟨_, out⟩, notZ⟩ := h.island
    have inX := Classical.byContradiction fun inX => notX ⟨fits, inX⟩
    have inZ := Classical.byContradiction fun inZ => notZ ⟨fits', inZ⟩
    exact out ⟨by omega, by omega⟩

/-- The intersection of ranges in normal form with ends settles their common values, and never
    gives up on them. -/
theorem intersect_of_tight (ha : a.extent.Tight ty) (hb : b.extent.Tight ty) :
    a.intersect ty b =
        (canonical ty (common ty a.extent b.extent)).withEquiv (a.equiv.union b.equiv) ∧
      ∀ env, Extent.Settled env ty a.extent b.extent
        ((common ty a.extent b.extent).canonical ty) := by
  have position := Extent.common_position ha.proper hb.proper ha.isBounded hb.isBounded
  have proper := (position.keeps ha.proper hb.proper ha.isBounded hb.isBounded).1
  have settled : ∀ env, Extent.Settled env ty a.extent b.extent
      ((common ty a.extent b.extent).canonical ty) :=
    fun env => (position.settled ha hb).canonical proper
  refine ⟨?_, settled⟩
  have known := (settled fun _ => 0).ne_varying ha hb
  obtain ⟨extent, equiv⟩ := a
  obtain ⟨extent', equiv'⟩ := b
  cases ha <;> cases hb <;> simp [intersect, isVarying, canonical, ofExtent, known]

theorem intersect_of_undefined (h : a.extent = .undefined ∨ b.extent = .undefined) :
    a.intersect ty b = undefined := by
  unfold intersect
  split <;> simp_all

theorem intersect_of_varying_right (defined : a.extent ≠ .undefined) (h : b.extent = .varying) :
    a.intersect ty b = a := by
  unfold intersect
  split <;> simp_all

theorem intersect_of_varying_left (bounded : b.extent.isBounded = true) (h : a.extent = .varying) :
    a.intersect ty b = b := by
  unfold intersect
  split <;> simp_all [Extent.isBounded]

theorem withEquiv_equiv {vr : ValueRange} {equiv : IdSet}
    (bounded : (vr.withEquiv equiv).isBounded = true) : (vr.withEquiv equiv).equiv = equiv := by
  unfold withEquiv at bounded ⊢
  split
  · rfl
  · next unbounded =>
      rw [if_neg unbounded] at bounded
      exact absurd bounded unbounded

theorem withEquiv_of_undefined {vr : ValueRange} {equiv : IdSet} (h : vr.extent = .undefined) :
    vr.withEquiv equiv = vr := by
  simp [withEquiv, isBounded, h, Extent.isBounded]

/-- The intersection of ranges in normal form settles their common values; where there are none,
    it says only that. -/
theorem intersect_settled (env : NameId → Int) (ha : a.extent.Normal ty) (hb : b.extent.Normal ty) :
    Extent.Settled env ty a.extent b.extent (a.intersect ty b).extent ∧
      ((a.intersect ty b).extent = .undefined → a.intersect ty b = undefined) := by
  rcases ha.cases with noneA | allA | tightA
  · rw [intersect_of_undefined (.inl noneA)]
    exact ⟨.empty, fun _ => rfl⟩
  · rcases hb.cases with noneB | allB | tightB
    · rw [intersect_of_undefined (.inr noneB)]
      exact ⟨.empty, fun _ => rfl⟩
    · rw [intersect_of_varying_right (by simp [allA]) allB, allA, allB]
      exact ⟨.exact (fun v all => ⟨all, all⟩) ⟨0, ty.fits_zero, trivial⟩, nofun⟩
    · rw [intersect_of_varying_left tightB.isBounded allA, allA]
      refine ⟨.right tightB fun _ _ _ => trivial, fun none => ?_⟩
      rw [none] at tightB
      cases tightB
  · have defined : a.extent ≠ .undefined := fun none => by
      rw [none] at tightA
      cases tightA
    rcases hb.cases with noneB | allB | tightB
    · rw [intersect_of_undefined (.inr noneB)]
      exact ⟨.empty, fun _ => rfl⟩
    · rw [intersect_of_varying_right defined allB, allB]
      exact ⟨.left tightA fun _ _ _ => trivial, fun none => absurd none defined⟩
    · obtain ⟨same, settled⟩ := intersect_of_tight tightA tightB
      rw [same, withEquiv_extent]
      refine ⟨settled env, fun none => ?_⟩
      rw [withEquiv_of_undefined none]
      exact congrArg ofExtent none

/-- An intersection is sound and as exact as extents allow: on ranges in normal form without names
    it holds all common values; it holds nothing else if one extent can say that, and is undefined
    if there are none; otherwise it holds the values of one of the two ranges. If both ranges and
    the result have ends, the equivalent names of both are kept. -/
theorem intersect_values (env : NameId → Int) (ha : a.extent.Normal ty) (hb : b.extent.Normal ty) :
    a.values env ty ∩ b.values env ty ⊆ (a.intersect ty b).values env ty ∧
    (Expressible ty (a.values env ty ∩ b.values env ty) →
      (a.intersect ty b).values env ty = a.values env ty ∩ b.values env ty) ∧
    (a.values env ty ∩ b.values env ty = ∅ → a.intersect ty b = undefined) ∧
    (¬ Expressible ty (a.values env ty ∩ b.values env ty) →
      (a.intersect ty b).values env ty = a.values env ty ∨
        (a.intersect ty b).values env ty = b.values env ty) ∧
    (a.isBounded = true → b.isBounded = true → (a.intersect ty b).isBounded = true →
      (a.intersect ty b).equiv = a.equiv.union b.equiv) := by
  have kept : a.values env ty ∩ b.values env ty ⊆ (a.intersect ty b).values env ty :=
    fun v ⟨⟨hv, inA⟩, _, inB⟩ => ⟨hv, intersect_holds ha.proper hb.proper hv inA inB⟩
  obtain ⟨settled, undefined⟩ := intersect_settled env ha hb
  have answer := settled.eq_or_scattered kept
  refine ⟨kept, fun simple => ?_, fun none => ?_, fun complex => ?_, ?_⟩
  · exact answer.resolve_right fun other => not_expressible_of_scattered other.2 simple
  · exact undefined (settled.eq_undefined none)
  · rcases answer with same | ⟨one, -⟩
    · exact absurd (same ▸ expressible_values env ty _) complex
    · exact one
  · intro boundedA boundedB bounded
    rw [(intersect_of_tight (ha.tight boundedA) (hb.tight boundedB)).1] at bounded ⊢
    exact withEquiv_equiv bounded

/-- The numbers up to five, with a lower end that has overflowed. -/
def upToFive : ValueRange := ⟨.inside .negInf (.const 5), .singleton 1⟩

/-- The numbers below three and above nine. -/
def notThreeToNine : ValueRange := ⟨.outside (.const 3) (.const 9), .singleton 2⟩

theorem intersect_values_upToFive :
    (upToFive.intersect (.int ⟨8, eight_bits⟩ .signed) notThreeToNine).equiv =
      upToFive.equiv.union notThreeToNine.equiv ∧
    (upToFive.intersect (.int ⟨8, eight_bits⟩ .signed) notThreeToNine).values
        (fun _ => 0) (.int ⟨8, eight_bits⟩ .signed) =
      upToFive.values (fun _ => 0) (.int ⟨8, eight_bits⟩ .signed) ∩
        notThreeToNine.values (fun _ => 0) (.int ⟨8, eight_bits⟩ .signed) := by
  have first : upToFive.extent.Normal (.int ⟨8, eight_bits⟩ .signed) :=
    ⟨.range, .negInf, .const 5, ⟨rfl, nofun⟩, ⟨rfl, nofun⟩, rfl⟩
  have second : notThreeToNine.extent.Normal (.int ⟨8, eight_bits⟩ .signed) :=
    ⟨.antiRange, .const 3, .const 9, ⟨rfl, nofun⟩, ⟨rfl, nofun⟩, rfl⟩
  have facts := intersect_values (fun _ => 0) first second
  refine ⟨facts.2.2.2.2 rfl rfl rfl, facts.2.1 ⟨-128, 2, .inl (Set.ext fun v => ?_)⟩⟩
  constructor
  · rintro ⟨⟨fits, above, below⟩, -, apart⟩
    have start : -128 ≤ v := above
    have stop : v ≤ 5 := below
    have gap : ¬ (3 ≤ v ∧ v ≤ 9) := apart
    exact ⟨fits, start, by omega⟩
  · rintro ⟨fits, above, below⟩
    have stop : v ≤ 5 := by omega
    have gap : ¬ (3 ≤ v ∧ v ≤ 9) := by omega
    exact ⟨⟨fits, above, stop⟩, fits, gap⟩

end ValueRange

end RangeFlow
