import RangeFlow.Proofs.Bitwise
import RangeFlow.Proofs.Shifts

/-! # Results of binary operators

The range of a binary operator holds its result on every value of the one range and every value of
the other. Each operator is followed on two intervals; a complement is the union of the two
intervals around it.
-/

namespace RangeFlow

theorem ScalarType.isPointer_eq_false {ty : ScalarType} (integral : ty.isIntegral = true) :
    ty.isPointer = false := by
  cases ty with
  | int | bool | float => rfl
  | ptr => cases integral

namespace ValueRange

variable {env : NameId → Int} {ty : ScalarType} {op : BinaryOp} {a b vr : ValueRange} {v x y : Int}

theorem Holds.isUndefined_eq (holds : vr.Holds env ty v) : vr.isUndefined = false := by
  obtain ⟨extent, equiv⟩ := vr
  cases extent with
  | undefined => exact holds.elim
  | inside | outside | varying => rfl

theorem Holds.isBounded (holds : vr.Holds env ty v) (known : vr.isVarying = false) :
    vr.isBounded = true := by
  obtain ⟨extent, equiv⟩ := vr
  cases extent with
  | undefined => exact holds.elim
  | varying => cases known
  | inside | outside => rfl

/-- A remainder lies between zero and the dividend, and is closer to zero than the divisor. -/
theorem tmod_within (x : Int) {y : Int} (hy : y ≠ 0) :
    (x.tmod y).natAbs < y.natAbs ∧ (x.tmod y).natAbs ≤ x.natAbs ∧ (0 ≤ x → 0 ≤ x.tmod y) ∧
      (x ≤ 0 → x.tmod y ≤ 0) := by
  rw [Int.natAbs_tmod]
  refine ⟨Nat.mod_lt _ (Int.natAbs_pos.mpr hy), Nat.mod_le _ _, Int.tmod_nonneg y,
    fun negative => ?_⟩
  have opposite := Int.tmod_nonneg y (show 0 ≤ -x by omega)
  rw [Int.neg_tmod] at opposite
  omega

theorem remainder_holds (hx : ty.fits x = true) (holdsA : a.Holds env ty x)
    (holdsB : b.Holds env ty y) (h : BinaryOp.truncMod.applyExact x y ty = some v) :
    (remainder ty a b).Holds env ty (ty.wrap v) := by
  obtain ⟨q, division, rfl⟩ := Option.map_eq_some_iff.mp h
  have nonzero := (BinaryOp.div?_eq_some division).1
  obtain ⟨small, shrinks, positive, negative⟩ := tmod_within x nonzero
  have fits : ty.fits (x.tmod y) = true := by
    have zero := ScalarType.fits_iff.mp ty.fits_zero
    rw [ScalarType.fits_iff] at hx ⊢
    omega
  rw [ScalarType.wrap_of_fits fits]
  unfold remainder
  split
  · next ends divisor hends =>
      have apart := (Bool.and_eq_true_iff.mp divisor).1
      have within := holdsB.within_constBounds? (isRange_of_rangeExcludesZero apart) hends
      have limit : ((x.tmod y).natAbs : Int) ≤ remainderLimit ends := by
        unfold remainderLimit
        omega
      refine holds_finish_inside ⟨?_, ?_⟩
      · rw [Bound.reading_const]
        split
        · next nonnegative =>
            refine positive ?_
            rcases Bool.or_eq_true_iff.mp nonnegative with unsigned | nonnegative
            · rw [ScalarType.fits_iff, ScalarType.minValue_of_not_signed (by simpa using unsigned)]
                at hx
              exact hx.1
            · exact holdsA.nonneg nonnegative hx
        · omega
      · rw [Bound.reading_const]
        omega
  · trivial

theorem lesser?_spec (env : NameId → Int) {s t m : Bound} (hs : s.Fits ty) (ht : t.Fits ty)
    (h : lesser? ty s t = some m) : (m = s ∨ m = t) ∧
      m.reading env ty ≤ s.reading env ty ∧ m.reading env ty ≤ t.reading env ty := by
  unfold lesser? at h
  split at h
  · next order =>
      cases h
      exact ⟨.inl rfl, le_rfl, Bound.reading_le_of_less hs ht order⟩
  · next order =>
      cases h
      exact ⟨.inl rfl, le_rfl, (Bound.eq_of_compare_equal order ▸ le_rfl)⟩
  · next order =>
      cases h
      exact ⟨.inr rfl, Bound.reading_le_of_greater hs ht order, le_rfl⟩
  · cases h
  · cases h

theorem greater?_spec (env : NameId → Int) {s t m : Bound} (hs : s.Fits ty) (ht : t.Fits ty)
    (h : greater? ty s t = some m) : (m = s ∨ m = t) ∧
      s.reading env ty ≤ m.reading env ty ∧ t.reading env ty ≤ m.reading env ty := by
  unfold greater? at h
  split at h
  · next order =>
      cases h
      exact ⟨.inl rfl, le_rfl, Bound.reading_le_of_greater hs ht order⟩
  · next order =>
      cases h
      exact ⟨.inl rfl, le_rfl, (Bound.eq_of_compare_equal order ▸ le_rfl)⟩
  · next order =>
      cases h
      exact ⟨.inr rfl, Bound.reading_le_of_less hs ht order, le_rfl⟩
  · cases h
  · cases h

/-- The ends of a minimum or maximum enclose it. One usable interval bounds it on one side. -/
theorem extremumEnds?_holds {least : Bool} {low high : Bound} (ha : a.Proper ty) (hb : b.Proper ty)
    (hx : ty.fits x = true) (hy : ty.fits y = true) (holdsA : a.Holds env ty x)
    (holdsB : b.Holds env ty y) (h : extremumEnds? least ty a b = some (low, high)) :
    (Extent.inside low high).Holds env ty (if least then Min.min x y else Max.max x y) := by
  rw [ScalarType.fits_iff] at hx hy
  have withinA : (a.isRange && !a.isSymbolic) = true → _ :=
    fun usable => holdsA.within (Bool.and_eq_true_iff.mp usable).1
  have withinB : (b.isRange && !b.isSymbolic) = true → _ :=
    fun usable => holdsB.within (Bool.and_eq_true_iff.mp usable).1
  unfold extremumEnds? at h
  dsimp only at h
  cases least with
  | true =>
      simp only [if_true] at h ⊢
      split at h
      · next usableA usableB =>
          have withinA := withinA usableA
          have withinB := withinB usableB
          split at h
          · next lowest highest =>
              cases h
              obtain ⟨-, belowA, belowB⟩ := lesser?_spec env ha.min_fits hb.min_fits lowest
              obtain ⟨rfl | rfl, -, -⟩ := lesser?_spec env ha.max_fits hb.max_fits highest
              · exact ⟨by omega, by omega⟩
              · exact ⟨by omega, by omega⟩
          · cases h
      · next usableA _ =>
          cases h
          have withinA := withinA usableA
          exact ⟨by rw [Bound.reading_const]; omega, by omega⟩
      · next _ usableB =>
          cases h
          have withinB := withinB usableB
          exact ⟨by rw [Bound.reading_const]; omega, by omega⟩
      · cases h
  | false =>
      simp only [Bool.false_eq_true, if_false] at h ⊢
      split at h
      · next usableA usableB =>
          have withinA := withinA usableA
          have withinB := withinB usableB
          split at h
          · next lowest highest =>
              cases h
              obtain ⟨rfl | rfl, -, -⟩ := greater?_spec env ha.min_fits hb.min_fits lowest
              all_goals
                obtain ⟨-, aboveA, aboveB⟩ :=
                  greater?_spec env ha.max_fits hb.max_fits highest
                exact ⟨by omega, by omega⟩
          · cases h
      · next usableA _ =>
          cases h
          have withinA := withinA usableA
          exact ⟨by omega, by rw [Bound.reading_const]; omega⟩
      · next _ usableB =>
          cases h
          have withinB := withinB usableB
          exact ⟨by omega, by rw [Bound.reading_const]; omega⟩
      · cases h

theorem extremum_holds (least : Bool) (ha : a.Proper ty) (hb : b.Proper ty)
    (hx : ty.fits x = true) (hy : ty.fits y = true) (holdsA : a.Holds env ty x)
    (holdsB : b.Holds env ty y) :
    (extremum least ty a b).Holds env ty
      (ty.wrap (if least then Min.min x y else Max.max x y)) := by
  have fits : ty.fits (if least then Min.min x y else Max.max x y) = true := by
    split
    · exact fits_min hx hy
    · exact fits_max hx hy
  rw [ScalarType.wrap_of_fits fits]
  unfold extremum
  split
  · next low high ends =>
      exact holds_finish_inside (extremumEnds?_holds ha hb hx hy holdsA holdsB ends)
  · trivial

/-- An operator that needs all information is followed only on two intervals, or two complements,
    without names. -/
theorem integerBinary_holds (integral : ty.isIntegral = true) (ha : a.Proper ty)
    (hb : b.Proper ty) (hx : ty.fits x = true) (hy : ty.fits y = true)
    (holdsA : a.Holds env ty x) (holdsB : b.Holds env ty y) (h : op.applyExact x y ty = some v)
    (defined : ty.overflowUndefined = true → ty.fits v = true) :
    (integerBinary op ty a b).Holds env ty (ty.wrap v) := by
  have near : ∀ lo hi, a.constBounds? ty = some (lo, hi) →
      ty.minValue - 1 ≤ lo ∧ hi ≤ ty.maxValue := by
    intro lo hi ends
    obtain ⟨low, high⟩ := ha.constBounds?_fits ends
    rw [ScalarType.fits_iff] at low high
    omega
  simp only [integerBinary, holdsA.isUndefined_eq, holdsB.isUndefined_eq, Bool.false_and,
    Bool.false_eq_true, if_false]
  split
  · trivial
  · next full =>
      have strict : toleratesPartial op = false → a.isBounded = true ∧ b.isBounded = true ∧
          a.kind = b.kind ∧ a.isSymbolic = false ∧ b.isSymbolic = false := by
        intro partial_
        simp only [partial_, Bool.not_false, Bool.true_and, Bool.or_eq_true, bne_iff_ne, ne_eq,
          not_or, Bool.not_eq_true, Decidable.not_not] at full
        obtain ⟨⟨⟨⟨varyingA, varyingB⟩, kinds⟩, concreteA⟩, concreteB⟩ := full
        exact ⟨holdsA.isBounded varyingA, holdsB.isBounded varyingB, kinds, concreteA, concreteB⟩
      cases op with
      | add => exact sum_holds true integral near hb holdsA holdsB (Wide.eq_of_check h) defined
      | sub => exact sum_holds false integral near hb holdsA holdsB (Wide.eq_of_check h) defined
      | mul =>
          obtain ⟨boundedA, boundedB, -, concreteA, concreteB⟩ := strict rfl
          rw [Wide.eq_of_check h] at defined ⊢
          exact product_holds integral ha hb boundedA boundedB concreteA concreteB holdsA holdsB
            defined
      | shl =>
          obtain ⟨-, -, kinds, concrete, -⟩ := strict rfl
          exact shl_holds integral ha kinds concrete holdsA holdsB h
      | shr =>
          obtain ⟨-, -, kinds, -, -⟩ := strict rfl
          exact shr_holds ha kinds hx holdsA holdsB h
      | truncDiv | floorDiv | ceilDiv | roundDiv | exactDiv =>
          exact quotient_holds rfl ha hb hx hy holdsA holdsB h defined
      | truncMod => exact remainder_holds hx holdsA holdsB h
      | min =>
          cases h
          exact extremum_holds true ha hb hx hy holdsA holdsB
      | max =>
          cases h
          exact extremum_holds false ha hb hx hy holdsA holdsB
      | bitAnd =>
          cases h
          exact bitAnd_holds ha hb hx hy holdsA holdsB
      | bitOr =>
          cases h
          exact bitOr_holds ha hb hx hy holdsA holdsB
      | bitXor =>
          cases h
          exact bitXor_holds ha hb holdsA holdsB
      | pointerPlus => trivial

/-- A value of a complement lies on one of its sides. -/
theorem splitAnti?_holds {first : ValueRange} {second : Option ValueRange}
    (hv : ty.fits v = true) (holds : vr.Holds env ty v)
    (sides : splitAnti? ty vr = some (first, second)) :
    first.Holds env ty v ∨ ∃ above, second = some above ∧ above.Holds env ty v := by
  rw [ScalarType.fits_iff] at hv
  unfold splitAnti? at sides
  split at sides
  · next low high extent =>
      split at sides
      · cases sides
      · next lo hi ends =>
          obtain ⟨hlo, hhi⟩ := concrete?_of_constBounds? ends
          have apart : ¬ (lo ≤ v ∧ v ≤ hi) := by
            rw [Holds, extent] at holds
            simp only [ValueRange.min, ValueRange.max, extent, Extent.min, Extent.max] at hlo hhi
            rwa [Extent.Holds, reading_of_concrete? hlo, reading_of_concrete? hhi] at holds
          have below : v ≤ lo - 1 → (range (.const ty.minValue) (.const (lo - 1))).Holds env ty v :=
            fun le => ⟨hv.1, le⟩
          have above : hi + 1 ≤ v → (range (.const (hi + 1)) (.const ty.maxValue)).Holds env ty v :=
            fun le => ⟨le, hv.2⟩
          dsimp only at sides
          split at sides
          · cases sides
            rcases Int.lt_or_le v lo with left | right
            · exact .inl (below (by omega))
            · refine .inr ⟨_, if_pos (by omega), above (by omega)⟩
          · split at sides
            · cases sides
              exact .inl (above (by omega))
            · cases sides
  · cases sides

/-- What a function does on the sides of a complement, or on any other range, its meet over the
    sides does on the whole. -/
theorem holds_of_sides {f : ValueRange → ValueRange} {target : ScalarType} (proper : vr.Proper ty)
    (hx : ty.fits x = true) (holds : vr.Holds env ty x)
    (keeps : ∀ part : ValueRange, part.Proper ty → (f part).Proper target)
    (each : ∀ part : ValueRange, part.Proper ty → part.Holds env ty x →
      (f part).Holds env target v) :
    (match splitAnti? ty vr with
      | some (first, some second) => meet target (f first) (f second)
      | some (first, none) => f first
      | none => f vr).Holds env target v := by
  split
  · next first second sides =>
      obtain ⟨hfirst, hsecond⟩ := splitAnti?_proper proper sides
      refine (meet_covers (keeps first hfirst) (keeps second (hsecond _ rfl))).2 env v ?_
      rcases splitAnti?_holds hx holds sides with holds | ⟨_, same, holds⟩
      · exact .inl (each first hfirst holds)
      · cases same
        exact .inr (each second (hsecond _ rfl) holds)
  · next first sides =>
      rcases splitAnti?_holds hx holds sides with holds | ⟨_, none, -⟩
      · exact each first (splitAnti?_proper proper sides).1 holds
      · cases none
  · exact each vr proper holds

theorem binaryOfSplitRight_holds (partial_ : toleratesPartial op = true → a.Proper ty)
    (hb : b.Proper ty) (hy : ty.fits y = true) (holdsB : b.Holds env ty y)
    (each : ∀ part : ValueRange, part.Proper ty → part.Holds env ty y →
      (integerBinary op ty a part).Holds env ty v) :
    (binaryOfSplitRight op ty a b).Holds env ty v :=
  holds_of_sides hb hy holdsB
    (fun _ hpart => integerBinary_proper op fun h => ⟨partial_ h, hpart⟩) each

theorem binary_of_isIntegral (integral : ty.isIntegral = true) : binary op ty a b =
    match splitAnti? ty a with
    | some (first, some second) =>
        meet ty (binaryOfSplitRight op ty first b) (binaryOfSplitRight op ty second b)
    | some (first, none) => binaryOfSplitRight op ty first b
    | none => binaryOfSplitRight op ty a b := by
  have tracked : ¬ (!ty.isTracked) = true := by simp [ScalarType.isTracked_of_isIntegral integral]
  have number : ¬ ty.isPointer = true := by simp [ScalarType.isPointer_eq_false integral]
  exact (if_neg tracked).trans (if_neg number)

/-- What an operator on integers does on the sides of complements, it does on the whole. -/
theorem binary_holds_of_parts (integral : ty.isIntegral = true) (ha : a.Proper ty)
    (hb : b.Proper ty) (hx : ty.fits x = true) (hy : ty.fits y = true) (holdsA : a.Holds env ty x)
    (holdsB : b.Holds env ty y)
    (each : ∀ left right : ValueRange, left.Proper ty → right.Proper ty → left.Holds env ty x →
      right.Holds env ty y → (integerBinary op ty left right).Holds env ty v) :
    (binary op ty a b).Holds env ty v := by
  rw [binary_of_isIntegral integral]
  refine holds_of_sides ha hx holdsA
    (fun part hpart => binaryOfSplitRight_proper op fun _ => ⟨hpart, hb⟩) fun left hleft holds => ?_
  exact binaryOfSplitRight_holds (fun _ => hleft) hb hy holdsB fun right hright holds' =>
    each left right hleft hright holds holds'

/-- The range of an operator on integers holds its result on a value of each range, if the result
    is defined: taken modulo the size of the type, or within the type if overflow is undefined. -/
theorem binary_holds (integral : ty.isIntegral = true) (ha : a.Proper ty) (hb : b.Proper ty)
    (hx : ty.fits x = true) (hy : ty.fits y = true) (holdsA : a.Holds env ty x)
    (holdsB : b.Holds env ty y) (h : op.applyExact x y ty = some v)
    (defined : ty.overflowUndefined = true → ty.fits v = true) :
    (binary op ty a b).Holds env ty (ty.wrap v) := by
  refine binary_holds_of_parts integral ha hb hx hy holdsA holdsB
    fun left right hleft hright holds holds' => ?_
  exact integerBinary_holds integral hleft hright hx hy holds holds' h defined

/-- A product of a range with an infinity and a complement. -/
theorem binary_holds_mul : (binary .mul (.int ⟨8, eight_bits⟩ .signed)
    (range (.const (-3)) .posInf) (anti (.const (-2)) (.const 1))).Holds (fun _ => 0)
      (.int ⟨8, eight_bits⟩ .signed) (-28) := by
  have interval : (range (.const (-3)) .posInf).Proper (.int ⟨8, eight_bits⟩ .signed) :=
    .inside (Bound.isLower_const.mpr rfl) ⟨trivial, by simp⟩
  have complement : (anti (.const (-2)) (.const 1)).Proper (.int ⟨8, eight_bits⟩ .signed) :=
    .outside rfl rfl (by decide)
  have holds : (range (.const (-3)) .posInf).Holds (fun _ => 0) (.int ⟨8, eight_bits⟩ .signed) 7 :=
    ⟨by decide, by decide⟩
  have holds' : (anti (.const (-2)) (.const 1)).Holds (fun _ => 0)
      (.int ⟨8, eight_bits⟩ .signed) (-4) :=
    fun inside => absurd inside.1 (by decide)
  have product : BinaryOp.mul.applyExact 7 (-4) (.int ⟨8, eight_bits⟩ .signed) = some (-28) := rfl
  exact binary_holds rfl interval complement rfl rfl holds holds' product fun _ => rfl

end ValueRange

end RangeFlow
