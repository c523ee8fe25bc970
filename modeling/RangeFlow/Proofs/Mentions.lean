import RangeFlow.Proofs.Corners
import RangeFlow.Proofs.Meets
import RangeFlow.Transfer.Rhs

/-! # Names that ranges mention

A range speaks of names in its ends and in the names that it lists as equal. Operators compute their
ends anew, without names; what is left of names in the range of a right-hand side comes from the
names that are read and from what is known about those. A join keeps only what both sides say.
-/

namespace RangeFlow

variable {S : NameId → Prop} {ty : ScalarType}

namespace Bound

variable {a b : Bound}

/-- The name that the bound mentions, if any, satisfies the predicate. -/
def NamesIn (S : NameId → Prop) (b : Bound) : Prop := ∀ n, b.base? = some n → S n

@[simp] theorem namesIn_const (c : Int) : (const c).NamesIn S := nofun

@[simp] theorem namesIn_negInf : negInf.NamesIn S := nofun

@[simp] theorem namesIn_posInf : posInf.NamesIn S := nofun

@[simp] theorem namesIn_symbolic {n : NameId} {offset : Int} :
    (symbolic n offset).NamesIn S ↔ S n :=
  ⟨fun h => h n rfl, fun h _ same => Option.some.inj same ▸ h⟩

theorem namesIn_of_plain (plain : b.isSymbolic = false) : b.NamesIn S := by
  cases b with
  | symbolic => cases plain
  | negInf | const | posInf => exact nofun

theorem namesIn_ite {p : Prop} [Decidable p] (ha : a.NamesIn S) (hb : b.NamesIn S) :
    (if p then a else b).NamesIn S := by
  split
  · exact ha
  · exact hb

/-- The number that a bound stands for depends only on the name it mentions. -/
theorem reading_congr {env env' : NameId → Int} (h : b.NamesIn fun n => env' n = env n) :
    b.reading env' ty = b.reading env ty := by
  cases b with
  | symbolic n offset => exact congrArg (· + offset) (namesIn_symbolic.mp h)
  | negInf | const | posInf => rfl

/-- What the lower of two lower ends mentions, both of them mention. -/
theorem lowerEnd?_namesIn {m : Bound} (h : ValueRange.lowerEnd? ty a b = some m)
    (names : a.NamesIn S ∨ b.NamesIn S) : m.NamesIn S := by
  unfold ValueRange.lowerEnd? at h
  split at h
  · next order =>
      cases h
      rw [eq_of_compare_equal order] at names
      exact names.elim id id
  · next order =>
      cases h
      exact namesIn_of_plain (not_isSymbolic_of_compare (.inr order)).2
  · next order =>
      cases h
      exact namesIn_of_plain (not_isSymbolic_of_compare (.inl order)).1
  · cases h
  · cases h

/-- What the higher of two upper ends mentions, both of them mention. -/
theorem upperEnd?_namesIn {m : Bound} (h : ValueRange.upperEnd? ty a b = some m)
    (names : a.NamesIn S ∨ b.NamesIn S) : m.NamesIn S := by
  unfold ValueRange.upperEnd? at h
  split at h
  · next order =>
      cases h
      rw [eq_of_compare_equal order] at names
      exact names.elim id id
  · next order =>
      cases h
      exact namesIn_of_plain (not_isSymbolic_of_compare (.inl order)).2
  · next order =>
      cases h
      exact namesIn_of_plain (not_isSymbolic_of_compare (.inr order)).1
  · cases h
  · cases h

end Bound

namespace Extent

variable {e : Extent}

/-- The names in the ends satisfy the predicate. -/
def NamesIn (S : NameId → Prop) (e : Extent) : Prop := e.min.NamesIn S ∧ e.max.NamesIn S

@[simp] theorem namesIn_inside {lo hi : Bound} :
    (inside lo hi).NamesIn S ↔ lo.NamesIn S ∧ hi.NamesIn S := .rfl

@[simp] theorem namesIn_outside {lo hi : Bound} :
    (outside lo hi).NamesIn S ↔ lo.NamesIn S ∧ hi.NamesIn S := .rfl

@[simp] theorem namesIn_undefined : undefined.NamesIn S := ⟨nofun, nofun⟩

@[simp] theorem namesIn_varying : varying.NamesIn S := ⟨nofun, nofun⟩

theorem namesIn_of_plain (plain : e.isSymbolic = false) : e.NamesIn S := by
  cases e with
  | undefined => exact namesIn_undefined
  | varying => exact namesIn_varying
  | inside | outside =>
      obtain ⟨low, high⟩ := plain_ends rfl plain
      exact ⟨Bound.namesIn_of_plain low, Bound.namesIn_of_plain high⟩

theorem NamesIn.ordered (h : e.NamesIn S) : (e.ordered ty).NamesIn S := by
  unfold Extent.ordered
  split
  · split
    · split
      · split
        · exact namesIn_varying
        · split <;> simp
      · exact namesIn_varying
    · exact h
  · exact namesIn_varying

theorem NamesIn.preferRange (h : e.NamesIn S) : (e.preferRange ty).NamesIn S := by
  unfold Extent.preferRange
  split
  · split
    · exact namesIn_varying
    · split
      · split <;> simp
      · split
        · split <;> simp
        · exact h
  · exact h

theorem NamesIn.dropFull (h : e.NamesIn S) : (e.dropFull ty).NamesIn S := by
  unfold Extent.dropFull
  split
  · split
    · exact namesIn_varying
    · exact h
  · exact h

/-- The normal form mentions no further name. -/
theorem NamesIn.canonical (h : e.NamesIn S) : (e.canonical ty).NamesIn S := by
  unfold Extent.canonical
  split
  · exact h
  · exact h
  · split
    · exact h
    · exact h.ordered.preferRange.dropFull

/-- The values of an extent depend only on the names in its ends. -/
theorem holds_congr {env env' : NameId → Int} {v : Int}
    (h : e.NamesIn fun n => env' n = env n) : e.Holds env' ty v ↔ e.Holds env ty v := by
  cases e with
  | undefined | varying => exact .rfl
  | inside lo hi | outside lo hi =>
      have low : lo.reading env' ty = lo.reading env ty := Bound.reading_congr h.1
      have high : hi.reading env' ty = hi.reading env ty := Bound.reading_congr h.2
      rw [Holds, Holds, low, high]

end Extent

namespace ValueRange

variable {a b vr : ValueRange}

/-- The range speaks of the name, in an end or as an equal. -/
def Mentions (vr : ValueRange) (n : NameId) : Prop :=
  vr.min.base? = some n ∨ vr.max.base? = some n ∨ n ∈ vr.equiv

/-- The names that the range speaks of satisfy the predicate. -/
def NamesIn (S : NameId → Prop) (vr : ValueRange) : Prop :=
  vr.extent.NamesIn S ∧ ∀ n ∈ vr.equiv, S n

theorem namesIn_iff : vr.NamesIn S ↔ ∀ n, vr.Mentions n → S n := by
  constructor
  · rintro ⟨⟨low, high⟩, equal⟩ n (h | h | h)
    · exact low n h
    · exact high n h
    · exact equal n h
  · exact fun h => ⟨⟨fun n hn => h n (.inl hn), fun n hn => h n (.inr (.inl hn))⟩,
      fun n hn => h n (.inr (.inr hn))⟩

theorem NamesIn.mono {S' : NameId → Prop} (h : vr.NamesIn S) (more : ∀ n, S n → S' n) :
    vr.NamesIn S' :=
  namesIn_iff.mpr fun n hn => more n (namesIn_iff.mp h n hn)

theorem holds_congr {env env' : NameId → Int} {v : Int}
    (h : ∀ n, vr.Mentions n → env' n = env n) : vr.Holds env' ty v ↔ vr.Holds env ty v :=
  Extent.holds_congr (namesIn_iff.mpr h).1

theorem namesIn_ofExtent {e : Extent} : (ofExtent e).NamesIn S ↔ e.NamesIn S :=
  ⟨fun h => h.1, fun h => ⟨h, nofun⟩⟩

@[simp] theorem namesIn_range {lo hi : Bound} :
    (range lo hi).NamesIn S ↔ lo.NamesIn S ∧ hi.NamesIn S := namesIn_ofExtent

@[simp] theorem namesIn_anti {lo hi : Bound} :
    (anti lo hi).NamesIn S ↔ lo.NamesIn S ∧ hi.NamesIn S := namesIn_ofExtent

@[simp] theorem namesIn_varying : varying.NamesIn S := namesIn_ofExtent.mpr Extent.namesIn_varying

@[simp] theorem namesIn_undefined : undefined.NamesIn S :=
  namesIn_ofExtent.mpr Extent.namesIn_undefined

@[simp] theorem namesIn_singleton (c : Int) : (singleton c).NamesIn S := by simp [singleton]

@[simp] theorem namesIn_nonnull : nonnull.NamesIn S := by simp [nonnull]

@[simp] theorem namesIn_sameAs {n : NameId} : (sameAs n).NamesIn S ↔ S n := by
  simp [sameAs, Bound.ofName]

theorem namesIn_ite {p : Prop} [Decidable p] (ha : a.NamesIn S) (hb : b.NamesIn S) :
    (if p then a else b).NamesIn S := by
  split
  · exact ha
  · exact hb

theorem namesIn_canonical {e : Extent} (h : e.NamesIn S) : (canonical ty e).NamesIn S :=
  namesIn_ofExtent.mpr h.canonical

theorem namesIn_withEquiv {equiv : IdSet} (h : vr.NamesIn S) (equal : ∀ n ∈ equiv, S n) :
    (vr.withEquiv equiv).NamesIn S := by
  unfold withEquiv
  split
  · exact ⟨h.1, equal⟩
  · exact h

theorem finish_namesIn {e : Extent} (h : e.NamesIn S) : (finish ty e).NamesIn S :=
  namesIn_ite namesIn_varying (namesIn_ite (namesIn_canonical h) namesIn_varying)

theorem giveUp_namesIn (ty : ScalarType) (a b : ValueRange) : (giveUp ty a b).NamesIn S :=
  namesIn_ite namesIn_nonnull namesIn_varying

/-- What a cover with ends mentions, both ranges mention. -/
theorem cover?_namesIn {e : Extent} (h : cover? ty a b = some e)
    (names : a.extent.NamesIn S ∨ b.extent.NamesIn S) : e.NamesIn S := by
  unfold cover? at h
  split at h
  · next left right =>
      rw [left, right] at names
      simp only [Option.bind_eq_bind, Option.bind_eq_some_iff] at h
      obtain ⟨low, hlow, high, hhigh, h⟩ := h
      split at h
      · cases h
      · cases h
        exact ⟨Bound.lowerEnd?_namesIn hlow (names.imp (·.1) (·.1)),
          Bound.upperEnd?_namesIn hhigh (names.imp (·.2) (·.2))⟩
  · next left right =>
      rw [left, right] at names
      split at h
      · next same =>
          cases h
          simp only [Bool.and_eq_true, beq_iff_eq] at same
          rw [← Bound.eq_of_compare_equal same.1.1, ← Bound.eq_of_compare_equal same.1.2] at names
          exact names.elim id id
      · cases h
  · split at h
    · cases h
    · next plain =>
        cases h
        simp only [Bool.or_eq_true, not_or, Bool.not_eq_true] at plain
        split
        · exact Extent.namesIn_of_plain plain.1.1
        · exact Extent.namesIn_of_plain plain.1.2

/-- A join mentions only what its left side mentions, if that has a value. -/
theorem meet_namesIn_left (defined : a.isUndefined = false) (ha : a.NamesIn S) :
    (meet ty a b).NamesIn S := by
  have known : a.extent ≠ .undefined := by simpa [isUndefined] using defined
  have met := met_meet ty a b
  generalize meet ty a b = m at met ⊢
  cases met with
  | right none => exact absurd none known
  | left => exact ha
  | unknown => exact namesIn_varying
  | covered _ _ cover =>
      exact namesIn_withEquiv (namesIn_ofExtent.mpr (cover?_namesIn cover (.inl ha.1)))
        fun n hn => ha.2 n (IdSet.mem_inter.mp hn).1
  | givenUp => exact giveUp_namesIn ty a b

/-- A join mentions only what its right side mentions, if that has a value. -/
theorem meet_namesIn_right (defined : b.isUndefined = false) (hb : b.NamesIn S) :
    (meet ty a b).NamesIn S := by
  have known : b.extent ≠ .undefined := by simpa [isUndefined] using defined
  have met := met_meet ty a b
  generalize meet ty a b = m at met ⊢
  cases met with
  | right => exact hb
  | left none => exact absurd none known
  | unknown => exact namesIn_varying
  | covered _ _ cover =>
      exact namesIn_withEquiv (namesIn_ofExtent.mpr (cover?_namesIn cover (.inr hb.1)))
        fun n hn => hb.2 n (IdSet.mem_inter.mp hn).2
  | givenUp => exact giveUp_namesIn ty a b

theorem meet_namesIn (ha : a.NamesIn S) (hb : b.NamesIn S) : (meet ty a b).NamesIn S := by
  cases defined : a.isUndefined with
  | false => exact meet_namesIn_left defined ha
  | true =>
      have none_ : a.extent = .undefined := by simpa [isUndefined] using defined
      simp only [meet, none_]
      exact hb

theorem cover?_isBounded (boundedA : a.isBounded = true) (boundedB : b.isBounded = true)
    {e : Extent} (h : cover? ty a b = some e) : e.isBounded = true := by
  unfold cover? at h
  split at h
  · simp only [Option.bind_eq_bind, Option.bind_eq_some_iff] at h
    obtain ⟨low, -, high, -, h⟩ := h
    split at h <;> cases h
    rfl
  · split at h <;> cases h
    rfl
  · split at h <;> cases h
    split
    · exact boundedA
    · exact boundedB

theorem meet_isUndefined (defined : a.isUndefined = false ∨ b.isUndefined = false) :
    (meet ty a b).isUndefined = false := by
  have met := met_meet ty a b
  generalize meet ty a b = m at met ⊢
  cases met with
  | right none => exact defined.resolve_left (by simp [isUndefined, none])
  | left none => exact defined.resolve_right (by simp [isUndefined, none])
  | unknown => rfl
  | @covered e boundedA boundedB cover =>
      have bounded : e.isBounded = true := cover?_isBounded boundedA boundedB cover
      rw [isUndefined, withEquiv_extent]
      cases e with
      | undefined | varying => cases bounded
      | inside | outside => rfl
  | givenUp =>
      unfold giveUp
      split <;> rfl

/-- A join of several ranges mentions only what each of them mentions that has a value. -/
theorem foldl_meet_namesIn_of_mem {ranges : List ValueRange} (hvr : vr ∈ ranges)
    (defined : vr.isUndefined = false) (h : vr.NamesIn S) (start : ValueRange) :
    (ranges.foldl (meet ty) start).NamesIn S := by
  obtain ⟨before, after, rfl⟩ := List.append_of_mem hvr
  rw [List.foldl_append, List.foldl_cons]
  have reached : (meet ty (before.foldl (meet ty) start) vr).isUndefined = false ∧
      (meet ty (before.foldl (meet ty) start) vr).NamesIn S :=
    ⟨meet_isUndefined (.inr defined), meet_namesIn_right defined h⟩
  refine (List.foldlRecOn (motive := fun x : ValueRange => x.isUndefined = false ∧ x.NamesIn S)
    after _ reached fun x hx b _ => ?_).2
  exact ⟨meet_isUndefined (.inl hx.1), meet_namesIn_left hx.1 hx.2⟩

theorem plusOne_namesIn {b : Bound} (h : b.NamesIn S) : (plusOne ty b).NamesIn S := by
  unfold plusOne
  split
  · exact Bound.namesIn_const _
  · exact h

theorem minusOne_namesIn {b : Bound} (h : b.NamesIn S) : (minusOne ty b).NamesIn S := by
  unfold minusOne
  split
  · exact Bound.namesIn_const _
  · exact h

section Common

variable {x y : Extent} (hx : x.NamesIn S) (hy : y.NamesIn S)

include hx hy

theorem commonOfApart_namesIn : (commonOfApart ty x y).NamesIn S := by
  unfold commonOfApart
  split
  · exact hx
  · exact hy
  · exact Extent.namesIn_undefined
  · split
    · exact ⟨hx.1, hy.2⟩
    · split
      · exact ⟨hy.1, hx.2⟩
      · exact hx

theorem commonOfNested_namesIn : (commonOfNested ty x y).NamesIn S := by
  unfold commonOfNested
  split
  · exact hy
  · split
    · exact ⟨plusOne_namesIn hy.2, hx.2⟩
    · split
      · exact ⟨hx.1, minusOne_namesIn hy.1⟩
      · split
        · exact hy
        · exact hx
  · exact hx
  · exact Extent.namesIn_undefined

theorem commonOfStaggered_namesIn : (commonOfStaggered ty x y).NamesIn S := by
  unfold commonOfStaggered
  split
  · exact ⟨hy.1, hx.2⟩
  · exact ⟨hx.1, minusOne_namesIn hy.1⟩
  · exact ⟨plusOne_namesIn hx.2, hy.2⟩
  · exact ⟨hx.1, hy.2⟩

theorem common_namesIn : (common ty x y).NamesIn S := by
  unfold common
  dsimp only
  split
  · split
    · exact hx
    · exact Extent.namesIn_undefined
  · split
    · exact commonOfApart_namesIn hx hy
    · split
      · exact commonOfNested_namesIn hx hy
      · split
        · exact commonOfNested_namesIn hy hx
        · split
          · exact commonOfStaggered_namesIn hx hy
          · split
            · exact commonOfStaggered_namesIn hy hx
            · exact hx

end Common

theorem intersect_namesIn (ha : a.NamesIn S) (hb : b.NamesIn S) :
    (a.intersect ty b).NamesIn S := by
  unfold intersect
  split
  · exact namesIn_undefined
  · exact namesIn_undefined
  · exact ha
  · exact hb
  · dsimp only
    apply namesIn_ite ha
    refine namesIn_withEquiv (namesIn_canonical (common_namesIn ha.1 hb.1)) fun n hn => ?_
    exact (IdSet.mem_union.mp hn).elim (ha.2 n) (hb.2 n)

/-! ### Operators -/

theorem boundBinary?_namesIn {op : BinaryOp} {x y c : Bound}
    (h : boundBinary? op ty x y = some c) : c.NamesIn S := by
  obtain ⟨_, _, -, -, result⟩ := boundBinary?_result h
  exact Bound.namesIn_of_plain result.isSymbolic

theorem wrapEnds?_namesIn {lo hi : Int} {e : Extent} (h : wrapEnds? ty lo hi = some e) :
    e.NamesIn S := by
  unfold wrapEnds? at h
  dsimp only at h
  split at h
  · cases h
    simp
  · split at h
    · cases h
    · split at h
      · cases h
      · split at h <;> cases h
        simp

theorem saturate_namesIn (value : Int) : (saturate ty value).NamesIn S := by
  unfold saturate
  split
  · exact Bound.namesIn_ite Bound.namesIn_negInf (Bound.namesIn_const _)
  · exact Bound.namesIn_ite Bound.namesIn_posInf (Bound.namesIn_const _)
  · exact Bound.namesIn_const _

theorem sum_namesIn (add : Bool) (ty : ScalarType) (a b : ValueRange) :
    (sum add ty a b).NamesIn S := by
  unfold sum
  split
  · dsimp only
    split
    · split
      · next e wrapped => exact finish_namesIn (wrapEnds?_namesIn wrapped)
      · exact namesIn_varying
    · exact finish_namesIn ⟨Bound.namesIn_ite Bound.namesIn_negInf (saturate_namesIn _),
        Bound.namesIn_ite Bound.namesIn_posInf (saturate_namesIn _)⟩
  · exact namesIn_varying

/-- The ends of products of ends mention no name. -/
theorem crossProducts_namesIn (op : BinaryOp) (ty : ScalarType) (a b : ValueRange) :
    (crossProducts op ty a b).NamesIn S := by
  unfold crossProducts
  dsimp only
  split
  · next first rest products =>
      have computed : ∀ c ∈ first :: rest, c.NamesIn S := by
        intro c hc
        obtain ⟨pair, -, product⟩ := exists_of_mem_mapM products hc
        exact boundBinary?_namesIn product
      have picked : ∀ test : Bound → Bound → Bool,
          (rest.foldl (fun m v => if test m v then v else m) first).NamesIn S := by
        intro test
        refine List.foldlRecOn _ _ (computed first List.mem_cons_self) fun m hm v hv => ?_
        exact Bound.namesIn_ite (computed v (List.mem_cons_of_mem first hv)) hm
      exact finish_namesIn ⟨picked _, picked _⟩
  · exact namesIn_varying

theorem product_namesIn (ty : ScalarType) (a b : ValueRange) : (product ty a b).NamesIn S := by
  unfold product
  split
  · unfold wrappingProduct
    split
    · exact namesIn_ite namesIn_varying (namesIn_canonical (by simp))
    · exact namesIn_varying
  · exact namesIn_ite namesIn_varying (crossProducts_namesIn .mul ty a b)

theorem shift_namesIn (left : Bool) (ty : ScalarType) (a b : ValueRange) :
    (shift left ty a b).NamesIn S := by
  unfold shift
  split
  · apply namesIn_ite namesIn_varying
    apply namesIn_ite (crossProducts_namesIn .shr ty a b)
    apply namesIn_ite (product_namesIn ty.wrapping a _)
    split
    · exact namesIn_ite (crossProducts_namesIn .shl ty a b) namesIn_varying
    · exact namesIn_varying
  · exact namesIn_varying

theorem quotientOfInterval_namesIn (op : BinaryOp) (ty : ScalarType) (b : ValueRange)
    (ha : a.extent.NamesIn S) : (quotientOfInterval op ty a b).NamesIn S := by
  have towardsZero : (quotientTowardsZero ty a).NamesIn S := by
    unfold quotientTowardsZero
    dsimp only
    split
    · next low high hlow hhigh =>
        refine finish_namesIn ⟨?_, ?_⟩
        · split at hlow <;> cases hlow
          · exact Bound.namesIn_const 0
          · exact ha.1
          · exact ha.1
        · split at hhigh <;> cases hhigh
          · exact Bound.namesIn_const 0
          · exact ha.2
          · exact ha.2
    · exact namesIn_varying
  have magnitude : (absExtent ty a).NamesIn S := by
    unfold absExtent
    split
    · exact namesIn_ite (namesIn_canonical (by simp)) namesIn_varying
    · exact namesIn_varying
  exact namesIn_ite (crossProducts_namesIn op ty a b) (namesIn_ite towardsZero magnitude)

theorem quotient_namesIn (op : BinaryOp) (ty : ScalarType) (a b : ValueRange) :
    (quotient op ty a b).NamesIn S := by
  unfold quotient
  split
  · next plain =>
      simp only [Bool.and_eq_true, Bool.not_eq_true'] at plain
      exact quotientOfInterval_namesIn op ty b (Extent.namesIn_of_plain plain.2)
  · exact namesIn_ite (quotientOfInterval_namesIn op ty b (Extent.namesIn_of_plain rfl))
      namesIn_varying

theorem remainder_namesIn (ty : ScalarType) (a b : ValueRange) :
    (remainder ty a b).NamesIn S := by
  unfold remainder
  split
  · exact finish_namesIn (by simp)
  · exact namesIn_varying

theorem extremum_namesIn (least : Bool) (ty : ScalarType) (a b : ValueRange) :
    (extremum least ty a b).NamesIn S := by
  have plain : ∀ vr : ValueRange, (vr.isRange && !vr.isSymbolic) = true → vr.extent.NamesIn S := by
    intro vr h
    simp only [Bool.and_eq_true, Bool.not_eq_true'] at h
    exact Extent.namesIn_of_plain h.2
  have oneSided : ∀ (vr : ValueRange) (low high : Bound), vr.extent.NamesIn S →
      some (if least then (Bound.const ty.minValue, vr.max) else (vr.min, .const ty.maxValue)) =
        some (low, high) → (Extent.inside low high).NamesIn S := by
    intro vr low high h ends
    cases least with
    | true =>
        cases ends
        exact ⟨Bound.namesIn_const _, h.2⟩
    | false =>
        cases ends
        exact ⟨h.1, Bound.namesIn_const _⟩
  have picked : ∀ {x y m : Bound}, x.NamesIn S → y.NamesIn S →
      (if least then lesser? ty else greater? ty) x y = some m → m.NamesIn S := by
    intro x y m hx hy h
    cases least <;> simp only [if_true, Bool.false_eq_true, if_false, lesser?, greater?] at h <;>
      split at h <;> cases h <;> assumption
  unfold extremum
  split
  · next low high ends =>
      apply finish_namesIn
      unfold extremumEnds? at ends
      dsimp only at ends
      split at ends
      · next first second =>
          split at ends
          · next lower upper hlower hupper =>
              cases ends
              exact ⟨picked (plain a first).1 (plain b second).1 hlower,
                picked (plain a first).2 (plain b second).2 hupper⟩
          · cases ends
      · next first _ => exact oneSided a low high (plain a first) ends
      · next _ second => exact oneSided b low high (plain b second) ends
      · cases ends
  · exact namesIn_varying

theorem bitwise_namesIn (op : BinaryOp) (ty : ScalarType) (a b : ValueRange) :
    (bitwise op ty a b).NamesIn S := by
  unfold bitwise
  split
  · exact finish_namesIn (by simp)
  · exact finish_namesIn (by simp)
  · exact namesIn_ite (finish_namesIn (by simp)) namesIn_varying

theorem integerBinary_namesIn (op : BinaryOp) (ty : ScalarType) (a b : ValueRange) :
    (integerBinary op ty a b).NamesIn S := by
  unfold integerBinary
  split
  · exact namesIn_undefined
  · apply namesIn_ite namesIn_varying
    cases op with
    | add | sub => exact sum_namesIn _ ty _ _
    | mul => exact product_namesIn ty _ _
    | shl | shr => exact shift_namesIn _ ty _ _
    | truncDiv | floorDiv | ceilDiv | roundDiv | exactDiv => exact quotient_namesIn _ ty _ _
    | truncMod => exact remainder_namesIn ty _ _
    | min | max => exact extremum_namesIn _ ty _ _
    | bitAnd | bitOr | bitXor => exact bitwise_namesIn _ ty _ _
    | pointerPlus => exact namesIn_varying

theorem binaryOfSplitRight_namesIn (op : BinaryOp) (ty : ScalarType) (a b : ValueRange) :
    (binaryOfSplitRight op ty a b).NamesIn S := by
  unfold binaryOfSplitRight
  split
  · exact meet_namesIn (integerBinary_namesIn op ty a _) (integerBinary_namesIn op ty a _)
  · exact integerBinary_namesIn op ty a _
  · exact integerBinary_namesIn op ty a b

/-- An operator on two ranges gives a range without names. -/
theorem binary_namesIn (op : BinaryOp) (ty : ScalarType) (a b : ValueRange) :
    (binary op ty a b).NamesIn S := by
  unfold binary
  split
  · exact namesIn_varying
  · split
    · exact namesIn_ite namesIn_nonnull (namesIn_ite (namesIn_singleton 0) namesIn_varying)
    · split
      · exact meet_namesIn (binaryOfSplitRight_namesIn op ty _ b)
          (binaryOfSplitRight_namesIn op ty _ b)
      · exact binaryOfSplitRight_namesIn op ty _ b
      · exact binaryOfSplitRight_namesIn op ty a b

theorem foldSingle_namesIn (op : UnaryOp) (source target : ScalarType) (vr : ValueRange) :
    (foldSingle op source target vr).NamesIn S := by
  unfold foldSingle
  split
  · exact namesIn_singleton _
  · exact namesIn_varying

theorem convert_namesIn (source target : ScalarType) (vr : ValueRange) :
    (convert source target vr).NamesIn S := by
  unfold convert
  dsimp only
  generalize (if (vr.isVarying && source.isIntegral &&
    decide (source.precision < target.precision)) = true then full source else vr) = x
  apply namesIn_ite namesIn_varying
  apply namesIn_ite namesIn_varying
  split
  · exact namesIn_varying
  · apply namesIn_ite _ namesIn_varying
    apply namesIn_canonical
    cases x.kind with
    | undefined => exact Extent.namesIn_undefined
    | varying => exact Extent.namesIn_varying
    | range | antiRange =>
        exact ⟨Bound.namesIn_ite Bound.namesIn_negInf (Bound.namesIn_const _),
          Bound.namesIn_ite Bound.namesIn_posInf (Bound.namesIn_const _)⟩

/-- The magnitude of a range without negative values is the range; any other magnitude mentions no
    name. -/
theorem absolute_cases (ty : ScalarType) (vr : ValueRange) :
    absolute ty vr = vr ∧ (ty.signed = true → vr.isNonnegative ty = true) ∨
      ∀ S, (absolute ty vr).NamesIn S := by
  unfold absolute
  split
  · next unsigned =>
      refine .inl ⟨rfl, fun signed => ?_⟩
      simpa [signed] using unsigned
  · refine .inr fun S => ?_
    apply namesIn_ite namesIn_varying
    apply namesIn_ite namesIn_varying
    have magnitude : ∀ {b c : Bound}, absBound? ty b = some c → c.NamesIn S := by
      intro b c found
      unfold absBound? at found
      split at found <;> cases found
      · exact Bound.namesIn_posInf
      · exact Bound.namesIn_posInf
      · exact Bound.namesIn_ite
          (Bound.namesIn_ite Bound.namesIn_posInf (Bound.namesIn_const _)) (Bound.namesIn_const _)
    split
    · next low high hlow hhigh =>
        apply namesIn_ite namesIn_varying
        have first := magnitude hlow
        have second := magnitude hhigh
        unfold absInterval
        dsimp only
        refine namesIn_ite (namesIn_canonical ?_) namesIn_varying
        split
        · exact ⟨Bound.namesIn_const 0, Bound.namesIn_ite first second⟩
        · split
          · exact ⟨second, first⟩
          · exact ⟨first, second⟩
    · exact namesIn_varying

theorem splitAnti?_namesIn {first : ValueRange} {second : Option ValueRange}
    (h : splitAnti? ty vr = some (first, second)) :
    first.NamesIn S ∧ ∀ x, second = some x → x.NamesIn S := by
  unfold splitAnti? at h
  split at h
  · split at h
    · cases h
    · dsimp only at h
      split at h
      · cases h
        refine ⟨by simp, fun x hx => ?_⟩
        split at hx <;> cases hx
        simp
      · split at h <;> cases h
        exact ⟨by simp, nofun⟩
  · cases h

/-- What is said of one side of a complement mentions no name, since its ends are numbers. -/
theorem unaryOfSplit_cases (op : UnaryOp) (source target : ScalarType) (vr : ValueRange) :
    unaryOfSplit op source target vr = absOrConvert op source target vr ∨
      ∀ S, (unaryOfSplit op source target vr).NamesIn S := by
  have side : ∀ x : ValueRange, (∀ S, x.NamesIn S) →
      ∀ S, (absOrConvert op source target x).NamesIn S := by
    intro x hx S
    refine namesIn_ite ?_ (convert_namesIn source target x)
    rcases absolute_cases target x with ⟨same, -⟩ | nameless
    · rw [same]
      exact hx S
    · exact nameless S
  have sides : ∀ parts, (if source.isPointer then none else splitAnti? source vr) =
      some parts → splitAnti? source vr = some parts := by
    intro parts h
    split at h
    · cases h
    · exact h
  unfold unaryOfSplit
  split
  · next first second both =>
      refine .inr fun S => meet_namesIn (side first ?_ S) (side second ?_ S)
      · exact fun S => (splitAnti?_namesIn (sides _ both)).1
      · exact fun S => (splitAnti?_namesIn (sides _ both)).2 second rfl
  · next first one => exact .inr (side first fun S => (splitAnti?_namesIn (sides _ one)).1)
  · exact .inl rfl

/-- Of all operators on one range only the magnitude may pass names on, and it does so only by
    giving the range as it is. -/
theorem unary_cases (op : UnaryOp) (source target : ScalarType) (vr : ValueRange) :
    (op = .abs ∧ unary op source target vr = vr ∧
      (target.signed = true → vr.isNonnegative target = true)) ∨
      ∀ S, (unary op source target vr).NamesIn S := by
  unfold unary
  split
  · exact .inr fun S => namesIn_varying
  · split
    · exact .inr fun S => namesIn_undefined
    · cases op with
      | negate | bitNot => exact .inr fun S => binary_namesIn .sub target _ vr
      | truthNot | floatToInt | intToFloat =>
          exact .inr fun S => foldSingle_namesIn _ source target vr
      | abs =>
          rcases unaryOfSplit_cases .abs source target vr with same | nameless
          · dsimp only
            rw [same]
            exact (absolute_cases target vr).imp (⟨rfl, ·⟩) id
          · exact .inr nameless
      | convert =>
          refine .inr fun S => namesIn_ite
            (namesIn_ite (namesIn_singleton 0) (namesIn_ite namesIn_nonnull namesIn_varying)) ?_
          rcases unaryOfSplit_cases .convert source target vr with same | nameless
          · rw [same]
            exact convert_namesIn source target vr
          · exact nameless S

end ValueRange

namespace Query

theorem rangeOrVarying_namesIn {min max : Bound} (low : min.NamesIn S) (high : max.NamesIn S) :
    (rangeOrVarying ty min max).NamesIn S :=
  ValueRange.namesIn_ite ValueRange.namesIn_varying
    (ValueRange.namesIn_ite ValueRange.namesIn_varying (ValueRange.namesIn_canonical ⟨low, high⟩))

theorem stepBound_namesIn {delta : Int} {b : Bound} (h : b.NamesIn S) :
    (stepBound ty delta b).NamesIn S := by
  cases b with
  | symbolic n offset => exact Bound.namesIn_symbolic.mpr (Bound.namesIn_symbolic.mp h)
  | negInf | const | posInf => exact Bound.namesIn_const _

theorem atMost_namesIn (strict : Bool) {max : Bound} (h : max.NamesIn S) :
    (atMost ty strict max).NamesIn S :=
  ValueRange.namesIn_ite
    (ValueRange.namesIn_ite ValueRange.namesIn_varying
      (rangeOrVarying_namesIn (Bound.namesIn_const _) (stepBound_namesIn h)))
    (rangeOrVarying_namesIn (Bound.namesIn_const _) h)

theorem atLeast_namesIn (strict : Bool) {min : Bound} (h : min.NamesIn S) :
    (atLeast ty strict min).NamesIn S :=
  ValueRange.namesIn_ite
    (ValueRange.namesIn_ite ValueRange.namesIn_varying
      (rangeOrVarying_namesIn (stepBound_namesIn h) (Bound.namesIn_const _)))
    (rangeOrVarying_namesIn h (Bound.namesIn_const _))

/-- What a predicate implies mentions only its limit. -/
theorem implied_namesIn (query : Query) {predicate : Predicate}
    (limit : ∀ op n, predicate = .compare op (.name n) → S n) :
    (query.implied ty predicate).NamesIn S := by
  cases predicate with
  | within low high negated =>
      apply ValueRange.namesIn_canonical
      split <;> simp
  | compare op o =>
      simp only [implied]
      split
      · next vr known =>
          have plain : vr.extent.NamesIn S := by
            cases o with
            | const c =>
                cases known
                exact ⟨Bound.namesIn_const c, Bound.namesIn_const c⟩
            | name n =>
                simp only [limitRange?] at known
                split at known
                · next h =>
                    cases known
                    simp only [Bool.and_eq_true, Bool.not_eq_true'] at h
                    exact Extent.namesIn_of_plain h.2
                · cases known
          cases op with
          | eq => exact ValueRange.namesIn_canonical plain
          | ne =>
              exact ValueRange.namesIn_ite (ValueRange.namesIn_canonical plain)
                ValueRange.namesIn_varying
          | le | lt =>
              exact ValueRange.namesIn_ite ValueRange.namesIn_varying (atMost_namesIn _ plain.2)
          | ge | gt =>
              exact ValueRange.namesIn_ite ValueRange.namesIn_varying (atLeast_namesIn _ plain.1)
      · have named : o.toBound.NamesIn S := by
          cases o with
          | const c => exact Bound.namesIn_const c
          | name n => exact Bound.namesIn_symbolic.mpr (limit op n rfl)
        cases op with
        | eq => exact ValueRange.namesIn_range.mpr ⟨named, named⟩
        | ne => exact ValueRange.namesIn_anti.mpr ⟨named, named⟩
        | le | lt => exact atMost_namesIn _ named
        | ge | gt => exact atLeast_namesIn _ named

/-- The range of a copy mentions only the source and what its range mentions. -/
theorem copyResult_namesIn {query : Query} {n : NameId} (own : S n)
    (known : (query.rangeOf n).NamesIn S) : (query.copyResult ty (.name n)).NamesIn S := by
  apply ValueRange.namesIn_ite ValueRange.namesIn_varying
  apply ValueRange.namesIn_ite known
  refine ⟨?_, fun m hm => ?_⟩
  · dsimp only [ValueRange.addEquivalence]
    split
    · exact (ValueRange.namesIn_sameAs.mpr own).1
    · exact known.1
  · simp only [ValueRange.addEquivalence, IdSet.mem_union, IdSet.mem_insert] at hm
    rcases hm with (rfl | base) | equal
    · exact own
    · split at base
      · cases base
      · exact known.2 m base
    · exact known.2 m equal

/-- The truth value of a comparison mentions no name. -/
theorem compareResult_namesIn (query : Query) (op : CmpOp) (lhs rhs : Operand) :
    (query.compareResult op lhs rhs ty).NamesIn S := by
  unfold compareResult
  split
  · exact ValueRange.namesIn_singleton _
  · exact ValueRange.namesIn_ite ValueRange.namesIn_varying
      (ValueRange.namesIn_range.mpr ⟨Bound.namesIn_const 0, Bound.namesIn_const 1⟩)

/-- An asserted name equals itself, the limit of an equality, and what equals that. -/
theorem mem_assertedEquals {query : Query} {subject m : NameId} {predicate : Predicate}
    (h : m ∈ query.assertedEquals subject predicate) : m = subject ∨ ∃ limit : NameId,
      predicate = .compare .eq (.name limit) ∧ (m = limit ∨ m ∈ (query.rangeOf limit).equiv) := by
  unfold assertedEquals at h
  split at h
  · simp only [IdSet.mem_union, IdSet.mem_insert, IdSet.mem_singleton] at h
    rcases h with (rfl | rfl) | equal
    · exact .inr ⟨m, rfl, .inl rfl⟩
    · exact .inl rfl
    · exact .inr ⟨_, rfl, .inr equal⟩
  · exact .inl (IdSet.mem_singleton.mp h)

/-- The range of an asserted name mentions only the name and the limit, and what their ranges
    mention. -/
theorem assertResult_namesIn {query : Query} {subject : NameId} {predicate : Predicate}
    (read : ∀ n ∈ (Rhs.assert subject predicate).usedNames, S n ∧ (query.rangeOf n).NamesIn S) :
    (query.assertResult subject predicate ty).NamesIn S := by
  obtain ⟨own, known⟩ := read subject (by simp [Rhs.usedNames])
  have limit : ∀ op n, predicate = .compare op (.name n) → S n ∧ (query.rangeOf n).NamesIn S := by
    rintro op n rfl
    exact read n (by simp [Rhs.usedNames, Rhs.operands, Operand.name?])
  apply ValueRange.namesIn_ite ValueRange.namesIn_varying
  apply ValueRange.namesIn_ite ValueRange.namesIn_varying
  refine ValueRange.intersect_namesIn known (ValueRange.namesIn_withEquiv
    (implied_namesIn query fun op n same => (limit op n same).1) fun m hm => ?_)
  rcases mem_assertedEquals hm with rfl | ⟨n, rfl, rfl | equal⟩
  · exact own
  · exact (limit .eq m rfl).1
  · exact (limit .eq n rfl).2.2 m equal

end Query

end RangeFlow
