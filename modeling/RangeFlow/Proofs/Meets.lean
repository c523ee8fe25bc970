import RangeFlow.Proofs.Intersections

/-! # Meets do not depend on order

`meet` covers the values of both ranges also where a complement lies between names or reaches an
infinity, which proper ranges leave out: it is enough that every end stands on its own side. The
order of the two ranges does not matter, because the order of two bounds is reversed when they are
exchanged, and a name stays equivalent only if both ranges had it so.
-/

namespace RangeFlow

theorem IdSet.inter_comm (s t : IdSet) : s.inter t = t.inter s :=
  IdSet.eq_of_mem_iff fun k => by simp only [IdSet.mem_inter, and_comm]

namespace Bound

variable {ty : ScalarType} {a b lo hi : Bound}

theorem ofInts_reverse (c d : Int) : (ValueOrder.ofInts c d).reverse = .ofInts d c := by
  unfold ValueOrder.ofInts
  rcases Int.lt_trichotomy c d with less | rfl | greater
  · rw [if_pos less, if_neg (by omega), if_neg (by omega)]
    rfl
  · simp [ValueOrder.reverse]
  · rw [if_neg (by omega), if_neg (by omega), if_pos greater]
    rfl

/-- Exchanged bounds have the reverse order. -/
theorem compare_reverse (ty : ScalarType) (a b : Bound) :
    (compare ty a b).reverse = compare ty b a := by
  by_cases same : a = b
  · subst same
    rw [compare_self]
    rfl
  · by_cases named : a.isSymbolic = true ∨ b.isSymbolic = true
    · rw [compare_of_isSymbolic same named, compare_of_isSymbolic (Ne.symm same) named.symm]
      rfl
    · cases a <;> cases b <;> simp_all [isSymbolic, ofInts_reverse] <;> rfl

theorem compare_beq_equal : (compare ty a b == .equal) = decide (a = b) := by
  rw [Bool.eq_iff_iff, beq_iff_eq, decide_eq_true_eq]
  refine ⟨eq_of_compare_equal, ?_⟩
  rintro rfl
  exact compare_self

/-- A bound that is known to lie outside of two others stands below the first or above the
    second. -/
theorem place_of_inside?_eq_false (env : NameId → Int) (hb : b.Fits ty) (low : lo.Fits ty)
    (high : hi.Fits ty) (h : inside? ty b lo hi = some false) :
    b.place env ty < lo.place env ty ∨ hi.place env ty < b.place env ty := by
  refine (inside?_eq_false h).imp (fun below => ?_) fun above => ?_
  · exact place_lt_of_less env hb low (by simp [less, below])
  · exact place_lt_of_less env high hb (by simp [less, above])

end Bound

/-- Constant ends are values of the type, and infinities stand only on the outer sides. Ends that
    mention names may stand anywhere. -/
def Extent.Sided (ty : ScalarType) : Extent → Prop
  | undefined | varying => True
  | inside lo hi | outside lo hi => lo.IsLower ty ∧ hi.IsUpper ty

namespace ValueRange

variable {env : NameId → Int} {ty : ScalarType} {a b : ValueRange} {v : Int}

/-- The ends stand on their own sides, and only ranges with ends carry equivalent names. -/
structure WellFormed (ty : ScalarType) (vr : ValueRange) : Prop where
  ends : vr.extent.Sided ty
  bare : vr.isBounded = false → vr.equiv = ∅

/-- A range that is known to exclude zero does not hold it. -/
theorem not_holds_zero (sided : a.extent.Sided ty) (bounded : a.isBounded = true)
    (h : a.excludesZero ty = true) : ¬ a.Holds env ty 0 := by
  intro holds
  obtain ⟨extent, equiv⟩ := a
  obtain ⟨plain, zero⟩ := Bool.and_eq_true_iff.mp h
  have plain : extent.isSymbolic = false := by simpa [isSymbolic] using plain
  obtain ⟨plainLow, plainHigh⟩ := Extent.plain_ends bounded plain
  cases extent with
  | undefined | varying => cases bounded
  | inside lo hi =>
      obtain ⟨low, high⟩ := sided
      have fits := ty.fits_zero
      have apart : Bound.inside? ty (.const 0) lo hi = some false := by
        simpa [includesZero?, isBounded, Extent.isBounded, isRange, Extent.isRange, min, max,
          Extent.min, Extent.max] using zero
      have start := (low.reading_le_iff fits).mp holds.1
      have stop := (high.le_reading_iff fits).mp holds.2
      rcases Bound.place_of_inside?_eq_false env (Bound.fits_const.mpr fits) low.1 high.1 apart
        with below | above
      · rw [Bound.place_const] at below
        omega
      · rw [Bound.place_const] at above
        omega
  | outside lo hi =>
      have within : Bound.inside? ty (.const 0) lo hi = some true := by
        simpa [includesZero?, isBounded, Extent.isBounded, isRange, Extent.isRange, min, max,
          Extent.min, Extent.max] using zero
      obtain ⟨below, above⟩ := Bound.inside?_eq_true within
      exact holds ⟨Bound.le_of_not_less? env rfl plainLow below,
        Bound.le_of_not_less? env plainHigh rfl above⟩

theorem holds_giveUp (sidedA : a.extent.Sided ty) (sidedB : b.extent.Sided ty)
    (boundedA : a.isBounded = true) (boundedB : b.isBounded = true)
    (h : a.Holds env ty v ∨ b.Holds env ty v) : (giveUp ty a b).Holds env ty v := by
  unfold giveUp
  split
  · next excluded =>
      obtain ⟨notA, notB⟩ := Bool.and_eq_true_iff.mp excluded
      rintro ⟨above, below⟩
      have zero : v = 0 := Int.le_antisymm below above
      subst zero
      rcases h with h | h
      · exact not_holds_zero sidedA boundedA notA h
      · exact not_holds_zero sidedB boundedB notB h
  · trivial

/-- An interval that does not overlap the interval that a complement leaves out lies in the
    complement. -/
theorem holds_outside_of_apart {lo hi lo' hi' : Bound} (sided : (Extent.inside lo hi).Sided ty)
    (sided' : (Extent.outside lo' hi').Sided ty)
    (apart : Bound.inside? ty lo' lo hi = some false ∧ Bound.inside? ty lo lo' hi' = some false)
    (hv : ty.fits v = true) (h : (Extent.inside lo hi).Holds env ty v) :
    (Extent.outside lo' hi').Holds env ty v := by
  obtain ⟨low, high⟩ := sided
  obtain ⟨low', high'⟩ := sided'
  rintro ⟨above, below⟩
  have start := (low.reading_le_iff hv).mp h.1
  have stop := (high.le_reading_iff hv).mp h.2
  have start' := (low'.reading_le_iff hv).mp above
  have stop' := (high'.le_reading_iff hv).mp below
  have first := Bound.place_of_inside?_eq_false env low'.1 low.1 high.1 apart.1
  have second := Bound.place_of_inside?_eq_false env low.1 low'.1 high'.1 apart.2
  omega

/-- The cover of two ranges with ends holds what either holds. -/
theorem holds_cover? (sidedA : a.extent.Sided ty) (sidedB : b.extent.Sided ty)
    (boundedA : a.isBounded = true) (boundedB : b.isBounded = true) {e : Extent}
    (cover : cover? ty a b = some e) (hv : ty.fits v = true)
    (h : a.Holds env ty v ∨ b.Holds env ty v) : e.Holds env ty v := by
  obtain ⟨extentA, equivA⟩ := a
  obtain ⟨extentB, equivB⟩ := b
  cases extentA with
  | undefined | varying => cases boundedA
  | inside lo hi =>
      cases extentB with
      | undefined | varying => cases boundedB
      | inside lo' hi' =>
          exact (cover?_inside sidedA.1 sidedA.2 sidedB.1 sidedB.2 cover).2 env v h
      | outside lo' hi' =>
          simp only [cover?, overlaps, min, max, Extent.min, Extent.max] at cover
          split at cover
          · cases cover
          · next apart =>
              cases cover
              simp only [Bool.or_eq_true, bne_iff_ne, ne_eq, not_or, Decidable.not_not] at apart
              exact h.elim (holds_outside_of_apart sidedA sidedB apart.2 hv) id
  | outside lo hi =>
      cases extentB with
      | undefined | varying => cases boundedB
      | inside lo' hi' =>
          simp only [cover?, overlaps, min, max, Extent.min, Extent.max] at cover
          split at cover
          · cases cover
          · next apart =>
              cases cover
              simp only [Bool.or_eq_true, bne_iff_ne, ne_eq, not_or, Decidable.not_not] at apart
              exact h.elim id (holds_outside_of_apart sidedB sidedA apart.2.symm hv)
      | outside lo' hi' =>
          simp only [cover?, Bound.compare_beq_equal] at cover
          split at cover
          · next same =>
              cases cover
              simp only [Bool.and_eq_true, decide_eq_true_eq] at same
              obtain ⟨⟨rfl, rfl⟩, -⟩ := same
              exact h.elim id id
          · cases cover

/-- How a meet comes about. -/
inductive Met (ty : ScalarType) (a b : ValueRange) : ValueRange → Prop where
  | right (none : a.extent = .undefined) : Met ty a b b
  | left (none : b.extent = .undefined) : Met ty a b a
  | unknown (any : a.extent = .varying ∨ b.extent = .varying) : Met ty a b varying
  | covered {e : Extent} (boundedA : a.isBounded = true) (boundedB : b.isBounded = true)
      (cover : cover? ty a b = some e) :
      Met ty a b ((ofExtent e).withEquiv (a.equiv.inter b.equiv))
  | givenUp (boundedA : a.isBounded = true) (boundedB : b.isBounded = true)
      (uncovered : cover? ty a b = none) : Met ty a b (giveUp ty a b)

theorem met_meet (ty : ScalarType) (a b : ValueRange) : Met ty a b (meet ty a b) := by
  unfold meet
  split
  · next none => exact .right none
  · next none _ => exact .left none
  · next any _ => exact .unknown (.inl any)
  · next any _ _ => exact .unknown (.inr any)
  · next definedA knownA definedB knownB =>
      have boundedA : a.isBounded = true := Extent.isBounded_of_ne definedA knownA
      have boundedB : b.isBounded = true := Extent.isBounded_of_ne definedB knownB
      split
      · next cover => exact .covered boundedA boundedB cover
      · next uncovered => exact .givenUp boundedA boundedB uncovered

theorem holds_meet (ha : a.WellFormed ty) (hb : b.WellFormed ty) (hv : ty.fits v = true)
    (h : a.Holds env ty v ∨ b.Holds env ty v) : (meet ty a b).Holds env ty v := by
  have met := met_meet ty a b
  generalize meet ty a b = m at met ⊢
  cases met with
  | right none =>
      refine h.resolve_left fun held => ?_
      rw [Holds, none] at held
      exact held
  | left none =>
      refine h.resolve_right fun held => ?_
      rw [Holds, none] at held
      exact held
  | unknown => trivial
  | covered boundedA boundedB cover =>
      rw [Holds, withEquiv_extent]
      exact holds_cover? ha.ends hb.ends boundedA boundedB cover hv h
  | givenUp boundedA boundedB _ => exact holds_giveUp ha.ends hb.ends boundedA boundedB h

theorem lowerEnd?_comm (ty : ScalarType) (x y : Bound) : lowerEnd? ty x y = lowerEnd? ty y x := by
  unfold lowerEnd?
  rw [← Bound.compare_reverse ty x y]
  cases order : Bound.compare ty x y with
  | equal =>
      rw [Bound.eq_of_compare_equal order]
      rfl
  | less | greater | notEqual | unknown => rfl

theorem upperEnd?_comm (ty : ScalarType) (x y : Bound) : upperEnd? ty x y = upperEnd? ty y x := by
  unfold upperEnd?
  rw [← Bound.compare_reverse ty x y]
  cases order : Bound.compare ty x y with
  | equal =>
      rw [Bound.eq_of_compare_equal order]
      rfl
  | less | greater | notEqual | unknown => rfl

theorem cover?_comm (boundedA : a.isBounded = true) (boundedB : b.isBounded = true) :
    cover? ty a b = cover? ty b a := by
  have mixed : (a.isSymbolic || b.isSymbolic || a.overlaps ty b) =
      (b.isSymbolic || a.isSymbolic || b.overlaps ty a) := by
    rw [overlaps, overlaps, Bool.or_comm a.isSymbolic, Bool.or_comm (_ != _)]
  obtain ⟨extentA, equivA⟩ := a
  obtain ⟨extentB, equivB⟩ := b
  cases extentA with
  | undefined | varying => cases boundedA
  | inside lo hi =>
      cases extentB with
      | undefined | varying => cases boundedB
      | inside lo' hi' => simp only [cover?, lowerEnd?_comm ty lo, upperEnd?_comm ty hi]
      | outside lo' hi' =>
          simp only [cover?, mixed]
          rfl
  | outside lo hi =>
      cases extentB with
      | undefined | varying => cases boundedB
      | inside lo' hi' =>
          simp only [cover?, mixed]
          rfl
      | outside lo' hi' =>
          simp only [cover?, Bound.compare_beq_equal, Bool.and_eq_true, decide_eq_true_eq]
          by_cases same : lo = lo' ∧ hi = hi'
          · obtain ⟨rfl, rfl⟩ := same
            rfl
          · rw [if_neg fun h => same h.1, if_neg fun h => same ⟨h.1.1.symm, h.1.2.symm⟩]

theorem giveUp_comm (ty : ScalarType) (a b : ValueRange) : giveUp ty a b = giveUp ty b a := by
  rw [giveUp, giveUp, Bool.and_comm]

theorem meet_of_bounded (boundedA : a.isBounded = true) (boundedB : b.isBounded = true) :
    meet ty a b = match cover? ty a b with
      | some e => (ofExtent e).withEquiv (a.equiv.inter b.equiv)
      | none => giveUp ty a b := by
  obtain ⟨extentA, equivA⟩ := a
  obtain ⟨extentB, equivB⟩ := b
  cases extentA with
  | undefined | varying => cases boundedA
  | inside | outside =>
      cases extentB with
      | undefined | varying => cases boundedB
      | inside | outside => rfl

theorem meet_comm (ha : a.WellFormed ty) (hb : b.WellFormed ty) : meet ty a b = meet ty b a := by
  by_cases bounded : a.isBounded = true ∧ b.isBounded = true
  · obtain ⟨boundedA, boundedB⟩ := bounded
    rw [meet_of_bounded boundedA boundedB, meet_of_bounded boundedB boundedA,
      cover?_comm boundedA boundedB, giveUp_comm, IdSet.inter_comm]
  · -- two ranges without values differ only in their names, and they have none
    have bareA := ha.bare
    have bareB := hb.bare
    obtain ⟨extentA, equivA⟩ := a
    obtain ⟨extentB, equivB⟩ := b
    cases extentA <;> cases extentB <;> simp_all [meet, isBounded, Extent.isBounded]

theorem giveUp_equiv (ty : ScalarType) (a b : ValueRange) : (giveUp ty a b).equiv = ∅ := by
  unfold giveUp
  split <;> rfl

theorem mem_of_mem_withEquiv {e : Extent} {equiv : IdSet} {n : NameId}
    (h : n ∈ ((ofExtent e).withEquiv equiv).equiv) : n ∈ equiv := by
  unfold withEquiv at h
  split at h
  · exact h
  · exact absurd h IdSet.not_mem_empty

/-- A name that is equivalent in a meet is so in each range that holds a value at all. -/
theorem mem_meet_equiv {n : NameId} (h : n ∈ (meet ty a b).equiv) :
    (a.isUndefined = false → n ∈ a.equiv) ∧ (b.isUndefined = false → n ∈ b.equiv) := by
  have met := met_meet ty a b
  generalize meet ty a b = m at met h
  cases met with
  | right none =>
      exact ⟨fun defined => absurd none (by simpa [isUndefined] using defined), fun _ => h⟩
  | left none =>
      exact ⟨fun _ => h, fun defined => absurd none (by simpa [isUndefined] using defined)⟩
  | unknown => exact absurd h IdSet.not_mem_empty
  | covered _ _ _ =>
      obtain ⟨inA, inB⟩ := IdSet.mem_inter.mp (mem_of_mem_withEquiv h)
      exact ⟨fun _ => inA, fun _ => inB⟩
  | givenUp _ _ _ =>
      rw [giveUp_equiv] at h
      exact absurd h IdSet.not_mem_empty

/-- A meet of well-formed ranges holds every value of the type that either holds, does not depend
    on their order, and keeps no equivalent name that a range with values lacks. -/
theorem meet_holds_comm_equiv (ha : a.WellFormed ty) (hb : b.WellFormed ty) :
    (∀ env v, ty.fits v = true → a.Holds env ty v ∨ b.Holds env ty v →
      (meet ty a b).Holds env ty v) ∧
    meet ty a b = meet ty b a ∧
    ∀ n ∈ (meet ty a b).equiv,
      (a.isUndefined = false → n ∈ a.equiv) ∧ (b.isUndefined = false → n ∈ b.equiv) :=
  ⟨fun _ _ hv h => holds_meet ha hb hv h, meet_comm ha hb, fun _ h => mem_meet_equiv h⟩

/-- Values that may have overflowed below, equal to two names. -/
def atMostMinusThree : ValueRange := ⟨.inside .negInf (.const (-3)), .ofList [1, 2]⟩

/-- Values that are not between zero and five, equal to two names. -/
def notZeroToFive : ValueRange := ⟨.outside (.const 0) (.const 5), .ofList [2, 3]⟩

theorem meet_holds_comm_equiv_notZeroToFive :
    meet (.int ⟨8, eight_bits⟩ .signed) notZeroToFive atMostMinusThree =
      ⟨.outside (.const 0) (.const 5), .singleton 2⟩ ∧
    (meet (.int ⟨8, eight_bits⟩ .signed) atMostMinusThree notZeroToFive).Holds (fun _ => 0)
      (.int ⟨8, eight_bits⟩ .signed) (-128) ∧
    ∀ n ∈ (meet (.int ⟨8, eight_bits⟩ .signed) atMostMinusThree notZeroToFive).equiv,
      n ∈ atMostMinusThree.equiv ∧ n ∈ notZeroToFive.equiv := by
  have interval : atMostMinusThree.WellFormed (.int ⟨8, eight_bits⟩ .signed) :=
    ⟨⟨⟨trivial, nofun⟩, rfl, nofun⟩, nofun⟩
  have complement : notZeroToFive.WellFormed (.int ⟨8, eight_bits⟩ .signed) :=
    ⟨⟨⟨rfl, nofun⟩, rfl, nofun⟩, nofun⟩
  obtain ⟨holds, comm, names⟩ := meet_holds_comm_equiv interval complement
  refine ⟨?_, holds _ _ rfl (.inl ⟨by decide, by decide⟩), fun n hn => ?_⟩
  · rw [← comm]
    decide
  · exact ⟨(names n hn).1 rfl, (names n hn).2 rfl⟩

end ValueRange

end RangeFlow
