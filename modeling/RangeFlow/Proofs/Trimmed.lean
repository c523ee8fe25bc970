import RangeFlow.Proofs.Refinement

/-! # Complements inside their type

The normal form writes the complement of an interval that reaches an end of the type as an interval.
All results of operators are in this form, and so are their joins and intersections, with one
exception: when nothing else is left, the complement of zero is kept even where zero is an end of
the type. Ends that mention names stay as they are, but only a single value is left out between
them. This holds for ends outside the type, too.
-/

namespace RangeFlow

namespace Extent

variable {ty : ScalarType} {e : Extent}

/-- A complement of an interval whose ends mention names leaves out a single value. -/
def Lone (e : Extent) : Prop := e.isSymbolic = true → e.isAnti = true → e.min = e.max

theorem lone_of_plain (h : e.isSymbolic = false) : e.Lone := by
  intro symbolic
  rw [h] at symbolic
  cases symbolic

theorem lone_inside (lo hi : Bound) : (inside lo hi).Lone := by
  intro _ anti
  cases anti

theorem lone_point (b : Bound) : (outside b b).Lone := fun _ _ => rfl

theorem lone_ofKind (kind : RangeKind) {lo hi : Bound} (low : lo.isSymbolic = false)
    (high : hi.isSymbolic = false) : (ofKind kind lo hi).Lone := by
  apply lone_of_plain
  cases kind with
  | undefined | varying => rfl
  | range | antiRange => simp [ofKind, isSymbolic, min, max, low, high]

/-- If one end of a complement mentions no name, neither does the other. -/
theorem Lone.plain {lo hi : Bound} (h : (outside lo hi).Lone)
    (plain : lo.isSymbolic = false ∨ hi.isSymbolic = false) :
    lo.isSymbolic = false ∧ hi.isSymbolic = false := by
  cases named : (outside lo hi).isSymbolic with
  | true =>
      have same : lo = hi := h named rfl
      subst same
      exact ⟨plain.elim id id, plain.elim id id⟩
  | false => exact plain_ends rfl named

/-- Complements leave out a single value if their ends mention names, and otherwise zero alone, or
    they could not be written as an interval instead. -/
structure Trimmed (ty : ScalarType) (e : Extent) : Prop where
  lone : e.Lone
  inner : e.isSymbolic = true ∨ e = outside (.const 0) (.const 0) ∨ e.preferRange ty = e

theorem trimmed_inside (ty : ScalarType) (lo hi : Bound) : (inside lo hi).Trimmed ty :=
  ⟨lone_inside lo hi, .inr (.inr rfl)⟩

theorem trimmed_undefined (ty : ScalarType) : undefined.Trimmed ty :=
  ⟨lone_of_plain rfl, .inr (.inr rfl)⟩

theorem trimmed_varying (ty : ScalarType) : varying.Trimmed ty :=
  ⟨lone_of_plain rfl, .inr (.inr rfl)⟩

theorem preferRange_of_not_isAnti (h : e.isAnti = false) : e.preferRange ty = e := by
  cases e with
  | undefined | inside | varying => rfl
  | outside lo hi => cases h

theorem preferRange_preferRange (ty : ScalarType) (e : Extent) :
    (e.preferRange ty).preferRange ty = e.preferRange ty := by
  have kept : e.preferRange ty = e ∨ (e.preferRange ty).isAnti = false := by
    unfold preferRange
    split
    · split
      · exact .inr rfl
      · split
        · split <;> exact .inr rfl
        · split
          · split <;> exact .inr rfl
          · exact .inl rfl
    · exact .inl rfl
  rcases kept with same | interval
  · rw [same, same]
  · exact preferRange_of_not_isAnti interval

theorem isSymbolic_ordered (h : e.isSymbolic = false) : (e.ordered ty).isSymbolic = false := by
  unfold ordered
  split
  · split
    · split
      · split
        · rfl
        · cases e <;> rfl
      · rfl
    · exact h
  · rfl

theorem isSymbolic_preferRange (h : e.isSymbolic = false) :
    (e.preferRange ty).isSymbolic = false := by
  unfold preferRange
  split
  · split
    · rfl
    · split
      · split <;> rfl
      · split
        · split <;> rfl
        · exact h
  · exact h

theorem trimmed_dropFull (plain : e.isSymbolic = false) (h : e.preferRange ty = e) :
    (e.dropFull ty).Trimmed ty := by
  unfold dropFull
  split
  · split
    · exact trimmed_varying ty
    · exact trimmed_inside ty _ _
  · exact ⟨lone_of_plain plain, .inr (.inr h)⟩

theorem canonical_trimmed (ty : ScalarType) (h : e.Lone) : (e.canonical ty).Trimmed ty := by
  unfold canonical
  split
  · exact trimmed_undefined ty
  · exact trimmed_varying ty
  · split
    · next symbolic => exact ⟨h, .inl symbolic⟩
    · next plain =>
        have plain : e.isSymbolic = false := by simpa using plain
        exact trimmed_dropFull (isSymbolic_preferRange (isSymbolic_ordered plain))
          (preferRange_preferRange ty _)

/-- For a type with the same values it is the same. -/
theorem Trimmed.of_wrapping (h : e.Trimmed ty.wrapping) : e.Trimmed ty := by
  have same : e.preferRange ty.wrapping = e.preferRange ty := by
    cases ty with
    | int bits sign => cases sign <;> rfl
    | bool | ptr | float => rfl
  have inner := h.inner
  rw [same] at inner
  exact ⟨h.lone, inner⟩

section

open ValueRange

variable {a b : Extent} (ha : a.Lone) (hb : b.Lone) (boundedA : a.isBounded = true)
  (boundedB : b.isBounded = true)

include ha hb boundedA boundedB

/-- Bounds that are known to lie in order mention no names. -/
theorem commonOfApart_lone
    (h : Bound.less ty a.max b.min = true ∨ Bound.less ty b.max a.min = true) :
    (commonOfApart ty a b).Lone := by
  cases a with
  | undefined | varying => cases boundedA
  | inside lo hi =>
      cases b with
      | undefined | varying => cases boundedB
      | inside => exact lone_of_plain rfl
      | outside => exact ha
  | outside lo hi =>
      cases b with
      | undefined | varying => cases boundedB
      | inside => exact hb
      | outside lo' hi' =>
          have plain : ((lo.isSymbolic = false ∧ hi.isSymbolic = false) ∧
              lo'.isSymbolic = false ∧ hi'.isSymbolic = false) := by
            rcases h with h | h
            · obtain ⟨last, first⟩ := Bound.not_isSymbolic_of_less h
              exact ⟨ha.plain (.inr last), hb.plain (.inl first)⟩
            · obtain ⟨last, first⟩ := Bound.not_isSymbolic_of_less h
              exact ⟨ha.plain (.inl first), hb.plain (.inr last)⟩
          simp only [commonOfApart]
          split
          · exact lone_of_plain (by simp [isSymbolic, min, max, plain])
          · split
            · exact lone_of_plain (by simp [isSymbolic, min, max, plain])
            · exact ha

theorem commonOfNested_lone : (commonOfNested ty a b).Lone := by
  cases a with
  | undefined | varying => cases boundedA
  | inside lo hi =>
      cases b with
      | undefined | varying => cases boundedB
      | inside => exact hb
      | outside lo' hi' =>
          simp only [commonOfNested]
          split
          · exact lone_inside _ _
          · split
            · exact lone_inside _ _
            · split
              · exact hb
              · exact ha
  | outside lo hi =>
      cases b with
      | undefined | varying => cases boundedB
      | inside => exact lone_of_plain rfl
      | outside => exact ha

theorem commonOfStaggered_lone (start : Bound.less ty a.min b.min = true) :
    (commonOfStaggered ty a b).Lone := by
  cases a with
  | undefined | varying => cases boundedA
  | inside lo hi =>
      cases b with
      | undefined | varying => cases boundedB
      | inside | outside => exact lone_inside _ _
  | outside lo hi =>
      cases b with
      | undefined | varying => cases boundedB
      | inside => exact lone_inside _ _
      | outside lo' hi' =>
          obtain ⟨first, second⟩ := Bound.not_isSymbolic_of_less start
          have last := (hb.plain (.inl second)).2
          exact lone_of_plain (by
            simpa [commonOfStaggered, isSymbolic, min, max, isBounded] using ⟨first, last⟩)

theorem common_lone : (common ty a b).Lone := by
  simp only [common, Bool.and_eq_true, Bool.or_eq_true, decide_eq_true_eq]
  split
  · split
    · exact ha
    · exact lone_of_plain rfl
  · split
    · next h => exact commonOfApart_lone ha hb boundedA boundedB h
    · split
      · exact commonOfNested_lone ha hb boundedA boundedB
      · split
        · exact commonOfNested_lone hb ha boundedB boundedA
        · split
          · next h => exact commonOfStaggered_lone ha hb boundedA boundedB h.2
          · split
            · next h => exact commonOfStaggered_lone hb ha boundedB boundedA h.2
            · exact ha

end

end Extent

namespace ValueRange

variable {ty : ScalarType} {a b vr : ValueRange}

/-- The extent of the range is trimmed. -/
def Trimmed (ty : ScalarType) (vr : ValueRange) : Prop := vr.extent.Trimmed ty

theorem varying_trimmed (ty : ScalarType) : varying.Trimmed ty := Extent.trimmed_varying ty

theorem nonnull_trimmed (ty : ScalarType) : nonnull.Trimmed ty :=
  ⟨Extent.lone_point _, .inr (.inl rfl)⟩

theorem interval_trimmed (ty : ScalarType) (lo hi : Bound) : (range lo hi).Trimmed ty :=
  Extent.trimmed_inside ty lo hi

theorem canonical_trimmed (ty : ScalarType) {e : Extent} (h : e.Lone) :
    (canonical ty e).Trimmed ty :=
  Extent.canonical_trimmed ty h

theorem trimmed_withEquiv {equiv : IdSet} : (vr.withEquiv equiv).Trimmed ty ↔ vr.Trimmed ty := by
  rw [Trimmed, withEquiv_extent, Trimmed]

theorem trimmed_ite {p : Prop} [Decidable p] (ha : a.Trimmed ty) (hb : b.Trimmed ty) :
    (if p then a else b).Trimmed ty := by
  split
  · exact ha
  · exact hb

theorem finish_trimmed (ty : ScalarType) {e : Extent} (h : e.Lone) : (finish ty e).Trimmed ty :=
  trimmed_ite (varying_trimmed ty)
    (trimmed_ite (canonical_trimmed ty h) (varying_trimmed ty))

theorem cover?_trimmed (ha : a.Trimmed ty) (hb : b.Trimmed ty) {e : Extent}
    (h : cover? ty a b = some e) : e.Trimmed ty := by
  unfold cover? at h
  split at h
  · simp only [Option.bind_eq_bind, Option.bind_eq_some_iff] at h
    obtain ⟨min, -, max, -, h⟩ := h
    split at h
    · cases h
    · cases h
      exact Extent.trimmed_inside ty min max
  · next known _ =>
      split at h
      · cases h
        rw [Trimmed, known] at ha
        exact ha
      · cases h
  · split at h
    · cases h
    · cases h
      split
      · exact ha
      · exact hb

/-- A join takes over the complement that one side leaves out, or leaves out zero. -/
theorem meet_trimmed (ha : a.Trimmed ty) (hb : b.Trimmed ty) : (meet ty a b).Trimmed ty := by
  unfold meet
  split
  · exact hb
  · exact ha
  · exact varying_trimmed ty
  · exact varying_trimmed ty
  · split
    · next e covered => exact trimmed_withEquiv.mpr (cover?_trimmed ha hb covered)
    · exact trimmed_ite (nonnull_trimmed ty) (varying_trimmed ty)

theorem foldl_meet_trimmed {ranges : List ValueRange} (h : ∀ vr ∈ ranges, vr.Trimmed ty)
    (ha : a.Trimmed ty) : (ranges.foldl (meet ty) a).Trimmed ty := by
  induction ranges generalizing a with
  | nil => exact ha
  | cons vr rest ih =>
      apply ih
      · intro x hx
        exact h x (List.mem_cons_of_mem vr hx)
      · exact meet_trimmed ha (h vr List.mem_cons_self)

theorem wrapEnds?_lone {lo hi : Int} {e : Extent} (h : wrapEnds? ty lo hi = some e) : e.Lone := by
  apply Extent.lone_of_plain
  unfold wrapEnds? at h
  dsimp only at h
  repeat' split at h
  all_goals cases h
  all_goals rfl

theorem sum_trimmed (add : Bool) (ty : ScalarType) (a b : ValueRange) :
    (sum add ty a b).Trimmed ty := by
  unfold sum
  split
  · dsimp only
    split
    · split
      · next wrapped => exact finish_trimmed ty (wrapEnds?_lone wrapped)
      · exact varying_trimmed ty
    · exact finish_trimmed ty (Extent.lone_inside _ _)
  · exact varying_trimmed ty

theorem crossProducts_trimmed (op : BinaryOp) (ty : ScalarType) (a b : ValueRange) :
    (crossProducts op ty a b).Trimmed ty := by
  unfold crossProducts
  dsimp only
  split
  · exact finish_trimmed ty (Extent.lone_inside _ _)
  · exact varying_trimmed ty

theorem product_trimmed (ty : ScalarType) (a b : ValueRange) : (product ty a b).Trimmed ty := by
  unfold product
  split
  · unfold wrappingProduct
    split
    · exact trimmed_ite (varying_trimmed ty) (canonical_trimmed ty (Extent.lone_inside _ _))
    · exact varying_trimmed ty
  · exact trimmed_ite (varying_trimmed ty) (crossProducts_trimmed .mul ty a b)

theorem shift_trimmed (left : Bool) (ty : ScalarType) (a b : ValueRange) :
    (shift left ty a b).Trimmed ty := by
  unfold shift
  split
  · split
    · exact varying_trimmed ty
    · split
      · exact crossProducts_trimmed .shr ty a b
      · split
        · -- the product is taken in the type whose results wrap
          exact (product_trimmed ty.wrapping a _).of_wrapping
        · split
          · exact trimmed_ite (crossProducts_trimmed .shl ty a b) (varying_trimmed ty)
          · exact varying_trimmed ty
  · exact varying_trimmed ty

theorem quotientOfInterval_trimmed (op : BinaryOp) (ty : ScalarType) (a b : ValueRange) :
    (quotientOfInterval op ty a b).Trimmed ty := by
  have towardsZero : (quotientTowardsZero ty a).Trimmed ty := by
    unfold quotientTowardsZero
    dsimp only
    split
    · exact finish_trimmed ty (Extent.lone_inside _ _)
    · exact varying_trimmed ty
  have magnitude : (absExtent ty a).Trimmed ty := by
    unfold absExtent
    split
    · exact trimmed_ite (canonical_trimmed ty (Extent.lone_inside _ _)) (varying_trimmed ty)
    · exact varying_trimmed ty
  exact trimmed_ite (crossProducts_trimmed op ty a b) (trimmed_ite towardsZero magnitude)

theorem quotient_trimmed (op : BinaryOp) (ty : ScalarType) (a b : ValueRange) :
    (quotient op ty a b).Trimmed ty :=
  trimmed_ite (quotientOfInterval_trimmed op ty a b)
    (trimmed_ite (quotientOfInterval_trimmed op ty _ b) (varying_trimmed ty))

theorem remainder_trimmed (ty : ScalarType) (a b : ValueRange) : (remainder ty a b).Trimmed ty := by
  unfold remainder
  split
  · exact finish_trimmed ty (Extent.lone_inside _ _)
  · exact varying_trimmed ty

theorem extremum_trimmed (least : Bool) (ty : ScalarType) (a b : ValueRange) :
    (extremum least ty a b).Trimmed ty := by
  unfold extremum
  split
  · exact finish_trimmed ty (Extent.lone_inside _ _)
  · exact varying_trimmed ty

theorem bitwise_trimmed (op : BinaryOp) (ty : ScalarType) (a b : ValueRange) :
    (bitwise op ty a b).Trimmed ty := by
  unfold bitwise
  split
  · exact finish_trimmed ty (Extent.lone_inside _ _)
  · exact finish_trimmed ty (Extent.lone_inside _ _)
  · exact trimmed_ite (finish_trimmed ty (Extent.lone_inside _ _)) (varying_trimmed ty)

/-- Operators on integers compute their extents anew, whatever the operands are. -/
theorem integerBinary_trimmed (op : BinaryOp) (ty : ScalarType) (a b : ValueRange) :
    (integerBinary op ty a b).Trimmed ty := by
  unfold integerBinary
  split
  · exact Extent.trimmed_undefined ty
  · apply trimmed_ite (varying_trimmed ty)
    cases op with
    | add | sub => exact sum_trimmed _ ty _ _
    | mul => exact product_trimmed ty _ _
    | shl | shr => exact shift_trimmed _ ty _ _
    | truncDiv | floorDiv | ceilDiv | roundDiv | exactDiv => exact quotient_trimmed _ ty _ _
    | truncMod => exact remainder_trimmed ty _ _
    | min | max => exact extremum_trimmed _ ty _ _
    | bitAnd | bitOr | bitXor => exact bitwise_trimmed _ ty _ _
    | pointerPlus => exact varying_trimmed ty

theorem binaryOfSplitRight_trimmed (op : BinaryOp) (ty : ScalarType) (a b : ValueRange) :
    (binaryOfSplitRight op ty a b).Trimmed ty := by
  unfold binaryOfSplitRight
  split
  · exact meet_trimmed (integerBinary_trimmed op ty a _) (integerBinary_trimmed op ty a _)
  · exact integerBinary_trimmed op ty a _
  · exact integerBinary_trimmed op ty a b

theorem binary_trimmed (op : BinaryOp) (ty : ScalarType) (a b : ValueRange) :
    (binary op ty a b).Trimmed ty := by
  unfold binary
  split
  · exact varying_trimmed ty
  · split
    · exact trimmed_ite (nonnull_trimmed ty)
        (trimmed_ite (interval_trimmed ty _ _) (varying_trimmed ty))
    · split
      · exact meet_trimmed (binaryOfSplitRight_trimmed op ty _ b)
          (binaryOfSplitRight_trimmed op ty _ b)
      · exact binaryOfSplitRight_trimmed op ty _ b
      · exact binaryOfSplitRight_trimmed op ty a b

theorem foldSingle_trimmed (op : UnaryOp) (source target : ScalarType) (vr : ValueRange) :
    (foldSingle op source target vr).Trimmed target := by
  unfold foldSingle
  split
  · exact interval_trimmed target _ _
  · exact varying_trimmed target

theorem convert_trimmed (source target : ScalarType) (vr : ValueRange) :
    (convert source target vr).Trimmed target := by
  have varying := varying_trimmed target
  unfold convert
  dsimp only
  generalize (if (vr.isVarying && source.isIntegral &&
    decide (source.precision < target.precision)) = true then full source else vr) = x
  apply trimmed_ite varying
  apply trimmed_ite varying
  split
  · exact varying
  · refine trimmed_ite (canonical_trimmed target (Extent.lone_ofKind _ ?_ ?_)) varying
    · split <;> rfl
    · split <;> rfl

/-- The two sides of a complement are intervals. -/
theorem splitAnti?_isRange {first : ValueRange} {second : Option ValueRange}
    (h : splitAnti? ty vr = some (first, second)) :
    first.isRange = true ∧ ∀ x, second = some x → x.isRange = true := by
  unfold splitAnti? at h
  split at h
  · split at h
    · cases h
    · dsimp only at h
      split at h
      · cases h
        refine ⟨rfl, fun x hx => ?_⟩
        split at hx <;> cases hx
        rfl
      · split at h
        · cases h
          exact ⟨rfl, fun x hx => by cases hx⟩
        · cases h
  · cases h

theorem trimmed_of_isRange (h : vr.isRange = true) : vr.Trimmed ty := by
  obtain ⟨extent, equiv⟩ := vr
  cases extent with
  | inside lo hi => exact interval_trimmed ty lo hi
  | undefined | outside | varying => cases h

theorem absolute_trimmed (h : vr.Trimmed ty) : (absolute ty vr).Trimmed ty := by
  unfold absolute
  split
  · exact h
  · split
    · exact varying_trimmed ty
    · split
      · exact varying_trimmed ty
      · split
        · apply trimmed_ite (varying_trimmed ty)
          exact trimmed_ite (canonical_trimmed ty (Extent.lone_inside _ _)) (varying_trimmed ty)
        · exact varying_trimmed ty

/-- Of all operators on one range, only the magnitude may pass its operand on. -/
theorem unary_trimmed (op : UnaryOp) (source target : ScalarType)
    (h : op = .abs → vr.Trimmed target) : (unary op source target vr).Trimmed target := by
  have single : ∀ x : ValueRange, (op = .abs → x.Trimmed target) →
      (absOrConvert op source target x).Trimmed target := by
    intro x hx
    unfold absOrConvert
    split
    · next magnitude => exact absolute_trimmed (hx magnitude)
    · exact convert_trimmed source target x
  have split_ : (unaryOfSplit op source target vr).Trimmed target := by
    have sides : ∀ parts, (if source.isPointer then none else splitAnti? source vr) =
        some parts → splitAnti? source vr = some parts := by
      intro parts h
      split at h
      · cases h
      · exact h
    unfold unaryOfSplit
    split
    · next first second both =>
        obtain ⟨below, above⟩ := splitAnti?_isRange (sides _ both)
        exact meet_trimmed (single first fun _ => trimmed_of_isRange below)
          (single second fun _ => trimmed_of_isRange (above second rfl))
    · next first one =>
        exact single first fun _ => trimmed_of_isRange (splitAnti?_isRange (sides _ one)).1
    · exact single vr h
  unfold unary
  split
  · exact varying_trimmed target
  · split
    · exact Extent.trimmed_undefined target
    · cases op with
      | negate | bitNot => exact binary_trimmed .sub target _ vr
      | truthNot | floatToInt | intToFloat => exact foldSingle_trimmed _ source target vr
      | abs => exact split_
      | convert =>
          apply trimmed_ite
          · exact trimmed_ite (interval_trimmed target _ _)
              (trimmed_ite (nonnull_trimmed target) (varying_trimmed target))
          · exact split_

theorem intersect_trimmed (ha : a.Trimmed ty) (hb : b.Trimmed ty) :
    (a.intersect ty b).Trimmed ty := by
  unfold intersect
  split
  · exact Extent.trimmed_undefined ty
  · exact Extent.trimmed_undefined ty
  · exact ha
  · exact hb
  · next someA partA someB partB =>
      have lone : (common ty a.extent b.extent).Lone :=
        Extent.common_lone ha.lone hb.lone (Extent.isBounded_of_ne someA partA)
          (Extent.isBounded_of_ne someB partB)
      dsimp only
      apply trimmed_ite ha
      exact trimmed_withEquiv.mpr (canonical_trimmed ty lone)

end ValueRange

namespace Query

variable {query : Query} {ty : ScalarType}

theorem rangeOrVarying_trimmed (ty : ScalarType) (min max : Bound) :
    (rangeOrVarying ty min max).Trimmed ty :=
  ValueRange.trimmed_ite (ValueRange.varying_trimmed ty)
    (ValueRange.trimmed_ite (ValueRange.varying_trimmed ty)
      (ValueRange.canonical_trimmed ty (Extent.lone_inside _ _)))

theorem atMost_trimmed (ty : ScalarType) (strict : Bool) (max : Bound) :
    (atMost ty strict max).Trimmed ty := by
  unfold atMost
  dsimp only
  apply ValueRange.trimmed_ite
  · exact ValueRange.trimmed_ite (ValueRange.varying_trimmed ty) (rangeOrVarying_trimmed ty _ _)
  · exact rangeOrVarying_trimmed ty _ _

theorem atLeast_trimmed (ty : ScalarType) (strict : Bool) (min : Bound) :
    (atLeast ty strict min).Trimmed ty := by
  unfold atLeast
  dsimp only
  apply ValueRange.trimmed_ite
  · exact ValueRange.trimmed_ite (ValueRange.varying_trimmed ty) (rangeOrVarying_trimmed ty _ _)
  · exact rangeOrVarying_trimmed ty _ _

/-- A limit whose range counts has no names as its ends. -/
theorem isSymbolic_limitRange? {limit : Operand} {vr : ValueRange}
    (h : query.limitRange? limit = some vr) : vr.isSymbolic = false := by
  cases limit with
  | const c =>
      cases h
      rfl
  | name n =>
      simp only [limitRange?] at h
      split at h
      · next plain =>
          cases h
          simp only [Bool.and_eq_true, Bool.not_eq_true'] at plain
          exact plain.2
      · cases h

theorem implied_trimmed (query : Query) (ty : ScalarType) (predicate : Predicate) :
    (query.implied ty predicate).Trimmed ty := by
  have varying := ValueRange.varying_trimmed ty
  unfold implied
  split
  · apply ValueRange.canonical_trimmed
    split
    · exact Extent.lone_of_plain rfl
    · exact Extent.lone_inside _ _
  · next op limit =>
      split
      · next vr known =>
          have plain := isSymbolic_limitRange? known
          cases op with
          | eq => exact ValueRange.canonical_trimmed ty (Extent.lone_of_plain plain)
          | ne =>
              simp only [impliedByRange]
              split
              · next single =>
                  have same : vr.min = vr.max := by
                    simp only [Bool.and_eq_true, beq_iff_eq] at single
                    exact single.2
                  rw [same]
                  exact ValueRange.canonical_trimmed ty (Extent.lone_point _)
              · exact varying
          | le | lt => exact ValueRange.trimmed_ite varying (atMost_trimmed ty _ _)
          | ge | gt => exact ValueRange.trimmed_ite varying (atLeast_trimmed ty _ _)
      · next unknown =>
          -- only the limit's name is known, and it is mentioned
          cases limit with
          | const c => cases unknown
          | name n =>
              cases op with
              | eq => exact ValueRange.interval_trimmed ty _ _
              | ne => exact ⟨Extent.lone_point _, .inl rfl⟩
              | le | lt => exact atMost_trimmed ty _ _
              | ge | gt => exact atLeast_trimmed ty _ _

/-- What is known about every name of a followed type is trimmed for it. -/
def Trimmed (query : Query) : Prop :=
  ∀ n, (query.typeOf n).isTracked = true → (query.rangeOf n).Trimmed (query.typeOf n)

/-- What a right-hand side may pass on as it is has the type: what it copies or selects, the subject
    of its assertion, and the operand of a magnitude. -/
def PassesTyped (query : Query) (ty : ScalarType) : Rhs → Prop
  | .copy x => query.Typed ty x
  | .unary op x => op = .abs → query.Typed ty x
  | .select _ x y => query.Typed ty x ∧ query.Typed ty y
  | .assert subject _ => query.typeOf subject = ty
  | _ => True

variable (hq : query.Trimmed) (tracked : ty.isTracked = true)

include hq tracked

theorem operandRange_trimmed {o : Operand} (h : query.Typed ty o) :
    (query.operandRange o).Trimmed ty := by
  cases o with
  | const c => exact ValueRange.interval_trimmed ty _ _
  | name n =>
      cases h
      exact hq n tracked

theorem copyResult_trimmed {o : Operand} (h : query.Typed ty o) :
    (query.copyResult ty o).Trimmed ty := by
  cases o with
  | const c => exact ValueRange.interval_trimmed ty _ _
  | name n =>
      have known : (query.rangeOf n).Trimmed ty := operandRange_trimmed hq tracked h
      simp only [copyResult]
      split
      · exact ValueRange.varying_trimmed ty
      · split
        · exact known
        · dsimp only [ValueRange.Trimmed, ValueRange.addEquivalence]
          split
          · exact Extent.trimmed_inside ty _ _
          · exact known

theorem assertResult_trimmed {subject : NameId} (own : query.typeOf subject = ty)
    (predicate : Predicate) : (query.assertResult subject predicate ty).Trimmed ty := by
  have known : (query.rangeOf subject).Trimmed ty := by
    subst own
    exact hq subject tracked
  have limits := implied_trimmed query ty predicate
  unfold assertResult
  apply ValueRange.trimmed_ite (ValueRange.varying_trimmed ty)
  apply ValueRange.trimmed_ite (ValueRange.varying_trimmed ty)
  exact ValueRange.intersect_trimmed known (ValueRange.trimmed_withEquiv.mpr limits)

/-- The range of a right-hand side is trimmed if the ranges that it passes on are. -/
theorem rhsResult_trimmed {rhs : Rhs} {divisionTraps : Bool} (h : query.PassesTyped ty rhs) :
    (query.rhsResult ty rhs divisionTraps).Trimmed ty := by
  have varying := ValueRange.varying_trimmed ty
  cases rhs with
  | copy x => exact copyResult_trimmed hq tracked h
  | unary op x =>
      apply ValueRange.unary_trimmed
      intro magnitude
      exact operandRange_trimmed hq tracked (h magnitude)
  | binary op x y => exact ValueRange.trimmed_ite varying (ValueRange.binary_trimmed op ty _ _)
  | compare op x y =>
      simp only [rhsResult, compareResult]
      split
      · exact ValueRange.interval_trimmed ty _ _
      · exact ValueRange.trimmed_ite varying (ValueRange.interval_trimmed ty _ _)
  | select cond x y =>
      have first := operandRange_trimmed hq tracked h.1
      have second := operandRange_trimmed hq tracked h.2
      simp only [rhsResult, selectResult]
      split
      · exact first
      · exact second
      · exact ValueRange.meet_trimmed first second
  | assert subject predicate => exact assertResult_trimmed hq tracked h predicate
  | addressOf => exact ValueRange.nonnull_trimmed ty
  | call arguments nonnull =>
      exact ValueRange.trimmed_ite (ValueRange.nonnull_trimmed ty) varying
  | load address => exact varying

end Query

end RangeFlow
