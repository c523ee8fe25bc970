import RangeFlow.Proofs.Membership
import RangeFlow.Transfer.Unary

/-! # Results of operators stay within their type

Every operator gives a proper range. Most of them compute their ends anew and bring them back into
the type, whatever the operands are. Only those that take over ends of their operands need proper
operands: quotients, remainders, minima and maxima, conjunctions and disjunctions, and magnitudes.
-/

namespace RangeFlow

theorem ScalarType.fits_wrapping (ty : ScalarType) (x : Int) : ty.wrapping.fits x = ty.fits x := by
  cases ty with
  | int bits sign => cases sign <;> rfl
  | bool | ptr | float => rfl

theorem Bound.fits_ite {ty : ScalarType} {p : Prop} [Decidable p] {a b : Bound} (ha : a.Fits ty)
    (hb : b.Fits ty) : (if p then a else b).Fits ty := by
  split
  · exact ha
  · exact hb

theorem Bound.fits_wrapping {ty : ScalarType} {b : Bound} (h : b.Fits ty.wrapping) : b.Fits ty := by
  cases b with
  | const c => exact (ty.fits_wrapping c).symm.trans h
  | negInf | symbolic | posInf => trivial

/-- The ends of the type are the same whether or not its results are taken modulo its size. -/
theorem Extent.Proper.of_wrapping {ty : ScalarType} {e : Extent} (h : e.Proper ty.wrapping) :
    e.Proper ty := by
  cases h with
  | undefined => exact .undefined
  | varying => exact .varying
  | inside low high =>
      exact .inside ⟨Bound.fits_wrapping low.1, low.2⟩ ⟨Bound.fits_wrapping high.1, high.2⟩
  | outside low high order =>
      exact .outside ((ty.fits_wrapping _).symm.trans low) ((ty.fits_wrapping _).symm.trans high)
        order
  | apartFrom n offset => exact .apartFrom n offset

namespace ValueRange

variable {ty : ScalarType} {a b vr : ValueRange}

theorem singleton_proper {c : Int} (h : ty.fits c = true) : (singleton c).Proper ty :=
  .inside (Bound.isLower_const.mpr h) (Bound.isUpper_const.mpr h)

theorem null_proper (ty : ScalarType) : null.Proper ty := singleton_proper ty.fits_zero

theorem full_proper (ty : ScalarType) : (full ty).Proper ty :=
  .inside (Bound.isLower_const.mpr (Extent.fits_minValue ty))
    (Bound.isUpper_const.mpr (Extent.fits_maxValue ty))

theorem Proper.min_fits (h : vr.Proper ty) : vr.min.Fits ty := by
  obtain ⟨extent, equiv⟩ := vr
  cases (h : extent.Proper ty) with
  | undefined | varying => exact ty.fits_zero
  | inside low high => exact low.1
  | outside low high order => exact low
  | apartFrom n offset => trivial

theorem Proper.max_fits (h : vr.Proper ty) : vr.max.Fits ty := by
  obtain ⟨extent, equiv⟩ := vr
  cases (h : extent.Proper ty) with
  | undefined | varying => exact ty.fits_zero
  | inside low high => exact high.1
  | outside low high order => exact high
  | apartFrom n offset => trivial

theorem fits_of_concrete? {bound : Bound} {c : Int} (fits : bound.Fits ty)
    (h : bound.concrete? ty = some c) : ty.fits c = true := by
  cases bound with
  | negInf =>
      cases h
      exact Extent.fits_minValue ty
  | const d =>
      cases h
      exact fits
  | symbolic n offset => cases h
  | posInf =>
      cases h
      exact Extent.fits_maxValue ty

theorem concrete?_of_constBounds? {lo hi : Int} (h : vr.constBounds? ty = some (lo, hi)) :
    vr.min.concrete? ty = some lo ∧ vr.max.concrete? ty = some hi := by
  simp only [constBounds?, Extent.constBounds?] at h
  split at h
  · simp only [Option.bind_eq_bind, Option.bind_eq_some_iff] at h
    obtain ⟨low, hlow, high, hhigh, same⟩ := h
    cases same
    exact ⟨hlow, hhigh⟩
  · cases h

/-- The numbers at the ends of a proper range are values of the type. -/
theorem Proper.constBounds?_fits {lo hi : Int} (h : vr.Proper ty)
    (ends : vr.constBounds? ty = some (lo, hi)) : ty.fits lo = true ∧ ty.fits hi = true := by
  obtain ⟨low, high⟩ := concrete?_of_constBounds? ends
  exact ⟨fits_of_concrete? h.min_fits low, fits_of_concrete? h.max_fits high⟩

theorem eq_posInf_of_le {bound : Bound} (h : (Bound.compare ty .posInf bound).isLe = true) :
    bound = .posInf := by
  cases bound with
  | posInf => rfl
  | negInf | const | symbolic => cases h

theorem eq_negInf_of_le {bound : Bound} (h : (Bound.compare ty bound .negInf).isLe = true) :
    bound = .negInf := by
  cases bound with
  | negInf => rfl
  | const | symbolic | posInf => cases h

theorem finish_inside {lo hi : Bound} (low : lo.Fits ty) (high : hi.Fits ty) :
    (finish ty (.inside lo hi)).Proper ty := by
  unfold finish
  split
  · exact .varying
  · next limited =>
      split
      · next order =>
          refine Extent.canonical_inside ⟨low, ?_⟩ ⟨high, ?_⟩
          · rintro rfl
            cases eq_posInf_of_le order
            exact limited (by simp [Extent.min, Extent.max, Bound.isInfinity])
          · rintro rfl
            cases eq_negInf_of_le order
            exact limited (by simp [Extent.min, Extent.max, Bound.isInfinity])
      · exact .varying

theorem finish_outside {c d : Int} (low : ty.fits c = true) (high : ty.fits d = true) :
    (finish ty (.outside (.const c) (.const d))).Proper ty := by
  unfold finish
  split
  · exact .varying
  · split
    · exact (Extent.canonical_outside low high).1
    · exact .varying

theorem finish_wrapEnds? {lo hi : Int} {e : Extent} (h : wrapEnds? ty lo hi = some e) :
    (finish ty e).Proper ty := by
  have low := ty.wrap_fits lo
  have high := ty.wrap_fits hi
  have bounds := ScalarType.fits_iff.mp low
  have bounds' := ScalarType.fits_iff.mp high
  unfold wrapEnds? at h
  dsimp only at h
  split at h
  · cases h
    exact finish_inside low high
  · split at h
    · cases h
    · split at h
      · cases h
      · next notEnds =>
          split at h
          · cases h
          · cases h
            refine finish_outside ?_ ?_
            · exact ScalarType.fits_iff.mpr ⟨by omega, by omega⟩
            · exact ScalarType.fits_iff.mpr ⟨by omega, by omega⟩

theorem saturate_fits (ty : ScalarType) (value : Int) : (saturate ty value).Fits ty := by
  unfold saturate sideOf
  split
  · unfold Bound.negativeExtreme
    split
    · trivial
    · exact Extent.fits_minValue ty
  · unfold Bound.positiveExtreme
    split
    · trivial
    · exact Extent.fits_maxValue ty
  · next inside =>
      refine ScalarType.fits_iff.mpr ?_
      split at inside
      · cases inside
      · split at inside
        · cases inside
        · omega

theorem sum_proper (add : Bool) (ty : ScalarType) (a b : ValueRange) :
    (sum add ty a b).Proper ty := by
  unfold sum
  split
  · dsimp only
    split
    · split
      · next e he => exact finish_wrapEnds? he
      · exact .varying
    · exact finish_inside (Bound.fits_ite trivial (saturate_fits ty _))
        (Bound.fits_ite trivial (saturate_fits ty _))
  · exact .varying

theorem boundBinary?_fits {op : BinaryOp} {x y bound : Bound}
    (h : boundBinary? op ty x y = some bound) : bound.Fits ty := by
  simp only [boundBinary?, Option.bind_eq_bind, Option.bind_eq_some_iff] at h
  obtain ⟨c, -, d, -, h⟩ := h
  split at h
  · obtain ⟨exact_, -, h⟩ := Option.bind_eq_some_iff.mp h
    split at h
    · next fits =>
        cases h
        exact fits
    · cases h
  · split at h
    · cases h
      exact ty.fits_zero
    · obtain ⟨exact_, -, h⟩ := Option.bind_eq_some_iff.mp h
      split at h
      · next known =>
          cases h
          exact (Bool.and_eq_true_iff.mp known).2
      · split at h
        · cases h
        · split at h
          · cases h
          · cases h
            exact Bound.fits_ite trivial trivial

theorem foldl_pick_fits {pick : Bound → Bound → Bool} {bounds : List Bound} {first : Bound}
    (hfirst : first.Fits ty) (all : ∀ x ∈ bounds, x.Fits ty) :
    (bounds.foldl (fun m v => if pick v m then v else m) first).Fits ty := by
  induction bounds generalizing first with
  | nil => exact hfirst
  | cons x rest ih =>
      have hx := all x (List.mem_cons_self ..)
      exact ih (Bound.fits_ite hx hfirst) fun y hy => all y (List.mem_cons_of_mem _ hy)

theorem exists_of_mem_mapM {α β : Type} {f : α → Option β} {l : List α} {results : List β}
    (h : l.mapM f = some results) {y : β} (hy : y ∈ results) : ∃ x ∈ l, f x = some y := by
  induction l generalizing results with
  | nil =>
      cases h
      cases hy
  | cons x rest ih =>
      simp only [List.mapM_cons, Option.bind_eq_bind, Option.bind_eq_some_iff] at h
      obtain ⟨first, hfirst, others, hothers, same⟩ := h
      cases same
      rcases List.mem_cons.mp hy with rfl | hy
      · exact ⟨x, List.mem_cons_self .., hfirst⟩
      · obtain ⟨x', hx', found⟩ := ih hothers hy
        exact ⟨x', List.mem_cons_of_mem _ hx', found⟩

theorem crossProducts_proper (op : BinaryOp) (ty : ScalarType) (a b : ValueRange) :
    (crossProducts op ty a b).Proper ty := by
  unfold crossProducts
  dsimp only
  split
  · next first rest products =>
      have fits : ∀ x ∈ first :: rest, x.Fits ty := by
        intro x hx
        obtain ⟨pair, -, hpair⟩ := exists_of_mem_mapM products hx
        exact boundBinary?_fits hpair
      have hfirst := fits first (List.mem_cons_self ..)
      have hrest : ∀ x ∈ rest, x.Fits ty := fun x hx => fits x (List.mem_cons_of_mem _ hx)
      exact finish_inside (foldl_pick_fits hfirst hrest) (foldl_pick_fits hfirst hrest)
  · exact .varying

theorem product_proper (ty : ScalarType) (a b : ValueRange) : (product ty a b).Proper ty := by
  unfold product
  split
  · unfold wrappingProduct
    split
    · dsimp only
      split
      · exact .varying
      · exact Extent.canonical_inside (Bound.isLower_const.mpr (ty.wrap_fits _))
          (Bound.isUpper_const.mpr (ty.wrap_fits _))
    · exact .varying
  · split
    · exact .varying
    · exact crossProducts_proper .mul ty a b

theorem shift_proper (left : Bool) (ty : ScalarType) (a b : ValueRange) :
    (shift left ty a b).Proper ty := by
  unfold shift
  split
  · split
    · exact .varying
    · split
      · exact crossProducts_proper .shr ty a b
      · split
        · exact (product_proper ty.wrapping a _).of_wrapping
        · split
          · split
            · exact crossProducts_proper .shl ty a b
            · exact .varying
          · exact .varying
  · exact .varying

theorem absExtent_proper (ty : ScalarType) (vr : ValueRange) : (absExtent ty vr).Proper ty := by
  unfold absExtent
  split
  · dsimp only
    split
    · next fits =>
        obtain ⟨high, low⟩ := Bool.and_eq_true_iff.mp fits
        exact Extent.canonical_inside (Bound.isLower_const.mpr low) (Bound.isUpper_const.mpr high)
    · exact .varying
  · exact .varying

theorem quotientTowardsZero_proper (ha : a.Proper ty) : (quotientTowardsZero ty a).Proper ty := by
  unfold quotientTowardsZero
  dsimp only
  split
  · next low high hlow hhigh =>
      refine finish_inside ?_ ?_
      · split at hlow
        · cases hlow
          exact ty.fits_zero
        · cases hlow
          exact ha.min_fits
        · cases hlow
          exact ha.min_fits
        · cases hlow
        · cases hlow
      · split at hhigh
        · cases hhigh
          exact ty.fits_zero
        · cases hhigh
          exact ha.max_fits
        · cases hhigh
          exact ha.max_fits
        · cases hhigh
        · cases hhigh
  · exact .varying

theorem quotientOfInterval_proper (op : BinaryOp) (ha : a.Proper ty) (b : ValueRange) :
    (quotientOfInterval op ty a b).Proper ty := by
  unfold quotientOfInterval
  split
  · exact crossProducts_proper op ty a b
  · split
    · exact quotientTowardsZero_proper ha
    · exact absExtent_proper ty a

theorem quotient_proper (op : BinaryOp) (ha : a.Proper ty) (b : ValueRange) :
    (quotient op ty a b).Proper ty := by
  unfold quotient
  split
  · exact quotientOfInterval_proper op ha b
  · split
    · exact quotientOfInterval_proper op (full_proper ty) b
    · exact .varying

theorem finish_of_lt {c d : Int} (h : d < c) :
    finish ty (.inside (.const c) (.const d)) = varying := by
  have order : Bound.compare ty (.const c) (.const d) = .greater := by
    rw [Bound.compare_const]
    exact Bound.ofInts_eq_greater.mpr h
  unfold finish
  simp only [Extent.min, Extent.max, order, ValueOrder.isLe]
  split <;> rfl

theorem remainder_proper (a : ValueRange) (hb : b.Proper ty) : (remainder ty a b).Proper ty := by
  unfold remainder
  split
  · next ends divisor hends =>
      obtain ⟨lo, hi⟩ := ends
      obtain ⟨low, high⟩ := hb.constBounds?_fits hends
      have bounds := ScalarType.fits_iff.mp low
      have bounds' := ScalarType.fits_iff.mp high
      have notLeast : lo ≠ ty.minValue := by
        rintro rfl
        have least : b.min.isMin ty = true := by
          simp [Bound.isMin, (concrete?_of_constBounds? hends).1]
        simp [least] at divisor
      dsimp only
      by_cases empty : remainderLimit (lo, hi) < 0
      · rw [finish_of_lt]
        · exact .varying
        · split <;> omega
      · have limit : remainderLimit (lo, hi) ≤ ty.maxValue := by
          unfold remainderLimit
          cases signed : ty.signed with
          | true =>
              have := ScalarType.minValue_of_signed signed
              omega
          | false =>
              have := ScalarType.minValue_of_not_signed signed
              omega
        have zero := ScalarType.fits_iff.mp ty.fits_zero
        refine finish_inside (ScalarType.fits_iff.mpr ?_)
          (ScalarType.fits_iff.mpr ⟨by omega, limit⟩)
        split
        · exact zero
        · next negative =>
            have signed : ty.signed = true := by
              cases h : ty.signed with
              | true => rfl
              | false => simp [h] at negative
            have := ScalarType.minValue_of_signed signed
            omega
  · exact .varying

theorem lesser?_fits {x y m : Bound} (hx : x.Fits ty) (hy : y.Fits ty)
    (h : lesser? ty x y = some m) : m.Fits ty := by
  unfold lesser? at h
  split at h <;> cases h <;> assumption

theorem greater?_fits {x y m : Bound} (hx : x.Fits ty) (hy : y.Fits ty)
    (h : greater? ty x y = some m) : m.Fits ty := by
  unfold greater? at h
  split at h <;> cases h <;> assumption

theorem extremumEnds?_fits {least : Bool} {low high : Bound} (ha : a.Proper ty) (hb : b.Proper ty)
    (h : extremumEnds? least ty a b = some (low, high)) : low.Fits ty ∧ high.Fits ty := by
  have bottom : (Bound.const ty.minValue).Fits ty := Extent.fits_minValue ty
  have top : (Bound.const ty.maxValue).Fits ty := Extent.fits_maxValue ty
  unfold extremumEnds? at h
  dsimp only at h
  cases least with
  | true =>
      split at h
      · split at h
        · next hlow hhigh =>
            cases h
            exact ⟨lesser?_fits ha.min_fits hb.min_fits hlow,
              lesser?_fits ha.max_fits hb.max_fits hhigh⟩
        · cases h
      · cases h
        exact ⟨bottom, ha.max_fits⟩
      · cases h
        exact ⟨bottom, hb.max_fits⟩
      · cases h
  | false =>
      split at h
      · split at h
        · next hlow hhigh =>
            cases h
            exact ⟨greater?_fits ha.min_fits hb.min_fits hlow,
              greater?_fits ha.max_fits hb.max_fits hhigh⟩
        · cases h
      · cases h
        exact ⟨ha.min_fits, top⟩
      · cases h
        exact ⟨hb.min_fits, top⟩
      · cases h

theorem extremum_proper (least : Bool) (ha : a.Proper ty) (hb : b.Proper ty) :
    (extremum least ty a b).Proper ty := by
  unfold extremum
  split
  · next low high ends =>
      obtain ⟨hlow, hhigh⟩ := extremumEnds?_fits ha hb ends
      exact finish_inside hlow hhigh
  · exact .varying

theorem ofBits_fits (ty : ScalarType) (bits : Nat) : ty.fits (ty.ofBits bits) = true :=
  ty.wrap_fits bits

theorem fits_min {x y : Int} (hx : ty.fits x = true) (hy : ty.fits y = true) :
    ty.fits (Min.min x y) = true := by
  rw [ScalarType.fits_iff] at *
  omega

theorem fits_max {x y : Int} (hx : ty.fits x = true) (hy : ty.fits y = true) :
    ty.fits (Max.max x y) = true := by
  rw [ScalarType.fits_iff] at *
  omega

theorem Proper.ends_fits (h : vr.Proper ty) {known : Bool} {lo hi : Int}
    (ends : (if known then vr.constBounds? ty else none) = some (lo, hi)) :
    ty.fits lo = true ∧ ty.fits hi = true := by
  split at ends
  · exact h.constBounds?_fits ends
  · cases ends

theorem andEnds_fits (ha : a.Proper ty) (hb : b.Proper ty) :
    ty.fits (andEnds ty a b).1 = true ∧ ty.fits (andEnds ty a b).2 = true := by
  refine ⟨ofBits_fits ty _, ?_⟩
  unfold andEnds
  extract_lets bits0 bits1 ends0 ends1 most most' cut
  have cut_fits : ∀ (most : Int) (ends : Option (Int × Int)), ty.fits most = true →
      (∀ lo hi, ends = some (lo, hi) → ty.fits hi = true) → ty.fits (cut most ends) = true := by
    intro most ends hmost hends
    dsimp only [cut]
    split
    · next lo hi =>
        split
        · exact fits_min hmost (hends lo hi rfl)
        · exact hmost
    · exact hmost
  refine cut_fits _ _ (cut_fits _ _ ?_ ?_) ?_
  · dsimp only [most', ends0, ends1]
    split
    · next hends hends' =>
        split
        · exact fits_min (fits_min (ofBits_fits ty _) (ha.ends_fits hends).2)
            (hb.ends_fits hends').2
        · exact ofBits_fits ty _
    · exact ofBits_fits ty _
  · exact fun lo hi hends => (ha.ends_fits hends).2
  · exact fun lo hi hends => (hb.ends_fits hends).2

theorem orEnds_fits (ha : a.Proper ty) (hb : b.Proper ty) :
    ty.fits (orEnds ty a b).1 = true ∧ ty.fits (orEnds ty a b).2 = true := by
  refine ⟨?_, ofBits_fits ty _⟩
  unfold orEnds
  extract_lets bits0 bits1 ends0 ends1 least least' cut
  have cut_fits : ∀ (least : Int) (ends : Option (Int × Int)), ty.fits least = true →
      (∀ lo hi, ends = some (lo, hi) → ty.fits lo = true) → ty.fits (cut least ends) = true := by
    intro least ends hleast hends
    dsimp only [cut]
    split
    · next lo hi =>
        split
        · exact fits_max hleast (hends lo hi rfl)
        · exact hleast
    · exact hleast
  refine cut_fits _ _ (cut_fits _ _ ?_ ?_) ?_
  · dsimp only [least', ends0, ends1]
    split
    · next hends hends' =>
        split
        · exact fits_max (fits_max (ofBits_fits ty _) (ha.ends_fits hends).1)
            (hb.ends_fits hends').1
        · exact ofBits_fits ty _
    · exact ofBits_fits ty _
  · exact fun lo hi hends => (ha.ends_fits hends).1
  · exact fun lo hi hends => (hb.ends_fits hends).1

theorem bitAnd_proper (ha : a.Proper ty) (hb : b.Proper ty) : (bitwise .bitAnd ty a b).Proper ty :=
  finish_inside (andEnds_fits ha hb).1 (andEnds_fits ha hb).2

theorem bitOr_proper (ha : a.Proper ty) (hb : b.Proper ty) : (bitwise .bitOr ty a b).Proper ty :=
  finish_inside (orEnds_fits ha hb).1 (orEnds_fits ha hb).2

theorem bitXor_proper (ty : ScalarType) (a b : ValueRange) :
    (bitwise .bitXor ty a b).Proper ty := by
  simp only [bitwise]
  split
  · exact finish_inside (ofBits_fits ty _) (ofBits_fits ty _)
  · exact .varying

/-- The result of an operator on intervals is proper. Operators that make something of half the
    information take over ends of their operands. -/
theorem integerBinary_proper (op : BinaryOp)
    (h : toleratesPartial op = true → a.Proper ty ∧ b.Proper ty) :
    (integerBinary op ty a b).Proper ty := by
  have replaced : ∀ x : ValueRange, x.Proper ty →
      (if x.isUndefined then varying else x).Proper ty := by
    intro x hx
    split
    · exact .varying
    · exact hx
  have left := fun partial_ => replaced a (h partial_).1
  have right := fun partial_ => replaced b (h partial_).2
  unfold integerBinary
  split
  · exact .undefined
  · dsimp only
    generalize (if a.isUndefined then varying else a) = x at left ⊢
    generalize (if b.isUndefined then varying else b) = y at right ⊢
    split
    · exact .varying
    · cases op with
      | add => exact sum_proper true ty x y
      | sub => exact sum_proper false ty x y
      | mul => exact product_proper ty x y
      | shl => exact shift_proper true ty x y
      | shr => exact shift_proper false ty x y
      | truncDiv | floorDiv | ceilDiv | roundDiv | exactDiv => exact quotient_proper _ (left rfl) y
      | truncMod => exact remainder_proper x (right rfl)
      | min => exact extremum_proper true (left rfl) (right rfl)
      | max => exact extremum_proper false (left rfl) (right rfl)
      | bitAnd => exact bitAnd_proper (left rfl) (right rfl)
      | bitOr => exact bitOr_proper (left rfl) (right rfl)
      | bitXor => exact bitXor_proper ty x y
      | pointerPlus => exact .varying

/-- The two sides of a complement are proper. -/
theorem splitAnti?_proper (h : vr.Proper ty) {first : ValueRange} {second : Option ValueRange}
    (split_ : splitAnti? ty vr = some (first, second)) :
    first.Proper ty ∧ ∀ x, second = some x → x.Proper ty := by
  unfold splitAnti? at split_
  split at split_
  · split at split_
    · cases split_
    · next lo hi ends =>
        obtain ⟨low, high⟩ := h.constBounds?_fits ends
        have bounds := ScalarType.fits_iff.mp low
        have bounds' := ScalarType.fits_iff.mp high
        have above : hi < ty.maxValue →
            (range (.const (hi + 1)) (.const ty.maxValue)).Proper ty := by
          intro inside
          refine .inside (Bound.isLower_const.mpr ?_)
            (Bound.isUpper_const.mpr (Extent.fits_maxValue ty))
          exact ScalarType.fits_iff.mpr ⟨by omega, by omega⟩
        dsimp only at split_
        split at split_
        · cases split_
          refine ⟨.inside (Bound.isLower_const.mpr (Extent.fits_minValue ty))
            (Bound.isUpper_const.mpr ?_), ?_⟩
          · exact ScalarType.fits_iff.mpr ⟨by omega, by omega⟩
          · intro x hx
            split at hx
            · next inside =>
                cases hx
                exact above inside
            · cases hx
        · split at split_
          · next inside =>
              cases split_
              exact ⟨above inside, fun x hx => by cases hx⟩
          · cases split_
  · cases split_

theorem binaryOfSplitRight_proper (op : BinaryOp)
    (h : toleratesPartial op = true → a.Proper ty ∧ b.Proper ty) :
    (binaryOfSplitRight op ty a b).Proper ty := by
  unfold binaryOfSplitRight
  split
  · next first second sides =>
      have parts := fun partial_ => splitAnti?_proper (h partial_).2 sides
      exact (meet_covers
        (integerBinary_proper op fun partial_ => ⟨(h partial_).1, (parts partial_).1⟩)
        (integerBinary_proper op fun partial_ => ⟨(h partial_).1, (parts partial_).2 _ rfl⟩)).1
  · next first sides =>
      exact integerBinary_proper op fun partial_ =>
        ⟨(h partial_).1, (splitAnti?_proper (h partial_).2 sides).1⟩
  · exact integerBinary_proper op h

theorem pointerBinary_proper (op : BinaryOp) (ty : ScalarType) (a b : ValueRange) :
    (pointerBinary op ty a b).Proper ty := by
  have chosen : ∀ known : Bool × Bool,
      (if known.1 then nonnull else if known.2 then null else varying).Proper ty := by
    intro known
    split
    · exact nonnull_proper ty
    · split
      · exact null_proper ty
      · exact .varying
  exact chosen _

theorem binary_proper (op : BinaryOp)
    (h : toleratesPartial op = true → a.Proper ty ∧ b.Proper ty) :
    (binary op ty a b).Proper ty := by
  unfold binary
  split
  · exact .varying
  · split
    · exact pointerBinary_proper op ty a b
    · split
      · next first second sides =>
          have parts := fun partial_ => splitAnti?_proper (h partial_).1 sides
          exact (meet_covers
            (binaryOfSplitRight_proper op fun partial_ => ⟨(parts partial_).1, (h partial_).2⟩)
            (binaryOfSplitRight_proper op fun partial_ =>
              ⟨(parts partial_).2 _ rfl, (h partial_).2⟩)).1
      · next first sides =>
          exact binaryOfSplitRight_proper op fun partial_ =>
            ⟨(splitAnti?_proper (h partial_).1 sides).1, (h partial_).2⟩
      · exact binaryOfSplitRight_proper op h

theorem foldSingle_proper (op : UnaryOp) (source target : ScalarType) (vr : ValueRange) :
    (foldSingle op source target vr).Proper target := by
  unfold foldSingle
  split
  · next value folded =>
      obtain ⟨x, -, folded⟩ := Option.bind_eq_some_iff.mp folded
      obtain ⟨exact_, -, rfl⟩ := UnaryOp.fold_eq_some folded
      exact singleton_proper (target.wrap_fits exact_)
  · exact .varying

theorem toPointer_proper (source target : ScalarType) (vr : ValueRange) :
    (toPointer source vr).Proper target := by
  unfold toPointer
  split
  · exact null_proper target
  · split
    · exact nonnull_proper target
    · exact .varying

theorem convert_proper (source target : ScalarType) (vr : ValueRange) :
    (convert source target vr).Proper target := by
  unfold convert
  dsimp only
  generalize (if (vr.isVarying && source.isIntegral &&
    decide (source.precision < target.precision)) = true then full source else vr) = x
  split
  · exact .varying
  · next bounded =>
      split
      · exact .varying
      · next finite =>
          split
          · exact .varying
          · next lo hi ends =>
              split
              · obtain ⟨extent, equiv⟩ := x
                cases extent with
                | undefined | varying => exact absurd rfl bounded
                | inside min max =>
                    refine Extent.canonical_inside ?_ ?_
                    · split
                      · exact ⟨trivial, by simp⟩
                      · exact Bound.isLower_const.mpr (target.wrap_fits lo)
                    · split
                      · exact ⟨trivial, by simp⟩
                      · exact Bound.isUpper_const.mpr (target.wrap_fits hi)
                | outside min max =>
                    -- an infinity survives only in an interval
                    have finite : min.isInfinity = false ∧ max.isInfinity = false := by
                      simpa [usesInfinity, Extent.usesInfinity, Extent.isBounded, isRange,
                        Extent.isRange, Extent.min, Extent.max] using finite
                    simp only [ValueRange.min, ValueRange.max, Extent.min, Extent.max, finite.1,
                      finite.2]
                    exact (Extent.canonical_outside (target.wrap_fits lo) (target.wrap_fits hi)).1
              · exact .varying

theorem absBound?_fits {bound result : Bound} (signed : ty.signed = true) (fits : bound.Fits ty)
    (h : absBound? ty bound = some result) : result.Fits ty ∧ result ≠ .negInf := by
  unfold absBound? at h
  split at h
  · cases h
    exact ⟨trivial, by simp⟩
  · cases h
    exact ⟨trivial, by simp⟩
  · next c =>
      cases h
      split
      · unfold Bound.positiveExtreme
        split
        · exact ⟨trivial, by simp⟩
        · exact ⟨Extent.fits_maxValue ty, by simp⟩
      · next notLeast =>
          have least := ScalarType.minValue_of_signed signed
          have bounds := ScalarType.fits_iff.mp fits
          have differs : c ≠ ty.minValue := fun same => notLeast (Extent.isMin_const.mpr same)
          exact ⟨ScalarType.fits_iff.mpr ⟨by omega, by omega⟩, by simp⟩
  · cases h

theorem absInterval_proper {hasZero : Bool} {min max : Bound} (hmin : min.Fits ty ∧ min ≠ .negInf)
    (hmax : max.Fits ty ∧ max ≠ .negInf) (finite : ¬ (min = .posInf ∧ max = .posInf)) :
    (absInterval ty hasZero min max).Proper ty := by
  have interval : ∀ lo hi : Bound, lo.Fits ty → hi.Fits ty ∧ hi ≠ .negInf →
      ¬ (lo = .posInf ∧ hi = .posInf) →
      (if (Bound.compare ty lo hi).isLe then canonical ty (.inside lo hi)
        else varying).Proper ty := by
    intro lo hi low high finite
    split
    · next order =>
        refine Extent.canonical_inside ⟨low, ?_⟩ high
        rintro rfl
        exact finite ⟨rfl, eq_posInf_of_le order⟩
    · exact .varying
  unfold absInterval
  dsimp only
  cases swapped : Bound.compare ty min max == .greater with
  | true =>
      cases hasZero with
      | true => exact interval (.const 0) min ty.fits_zero hmin (by simp)
      | false => exact interval max min hmax.1 hmin fun both => finite both.symm
  | false =>
      cases hasZero with
      | true => exact interval (.const 0) max ty.fits_zero hmax (by simp)
      | false => exact interval min max hmin.1 hmax finite

theorem absolute_proper (h : vr.Proper ty) : (absolute ty vr).Proper ty := by
  unfold absolute
  split
  · exact h
  · next negative =>
      have signed : ty.signed = true := by
        cases known : ty.signed with
        | true => rfl
        | false => simp [known] at negative
      split
      · exact .varying
      · split
        · exact .varying
        · split
          · next min max hmin hmax =>
              split
              · exact .varying
              · next finite =>
                  exact absInterval_proper (absBound?_fits signed h.min_fits hmin)
                    (absBound?_fits signed h.max_fits hmax) finite
          · exact .varying

/-- The result of an operator or of a conversion is proper for the target type. A magnitude takes
    over ends of its operand. -/
theorem unary_proper (op : UnaryOp) (source target : ScalarType)
    (h : op = .abs → source = target ∧ vr.Proper target) :
    (unary op source target vr).Proper target := by
  have single : ∀ x : ValueRange, (op = .abs → x.Proper target) →
      (absOrConvert op source target x).Proper target := by
    intro x hx
    unfold absOrConvert
    split
    · next magnitude => exact absolute_proper (hx magnitude)
    · exact convert_proper source target x
  have split_ : (unaryOfSplit op source target vr).Proper target := by
    have parts : ∀ first second, (if source.isPointer then none else splitAnti? source vr) =
        some (first, second) → op = .abs →
        first.Proper target ∧ ∀ x, second = some x → x.Proper target := by
      intro first second sides magnitude
      obtain ⟨rfl, proper⟩ := h magnitude
      split at sides
      · cases sides
      · exact splitAnti?_proper proper sides
    unfold unaryOfSplit
    split
    · next first second sides =>
        exact (meet_covers (single first fun magnitude => (parts _ _ sides magnitude).1)
          (single second fun magnitude => (parts _ _ sides magnitude).2 _ rfl)).1
    · next first sides => exact single first fun magnitude => (parts _ _ sides magnitude).1
    · exact single vr fun magnitude => (h magnitude).2
  unfold unary
  split
  · exact .varying
  · split
    · exact .undefined
    · cases op with
      | negate | bitNot => exact binary_proper .sub fun partial_ => by cases partial_
      | truthNot | floatToInt | intToFloat => exact foldSingle_proper _ source target vr
      | abs => exact split_
      | convert =>
          dsimp only
          split
          · exact toPointer_proper source target vr
          · exact split_

end ValueRange

end RangeFlow
