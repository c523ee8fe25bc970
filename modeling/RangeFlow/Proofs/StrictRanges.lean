import RangeFlow.Proofs.StrictWords
import RangeFlow.Transfer.Strict

/-! # Strict ranges are the exact ranges

Normal forms, sums, quotients and remainders compute on the constant ends of their operands, which
are values of a type and so no further from zero than its size. Steps by one, sums and differences
of such numbers stay within their word; each function over strict words gives what the exact
function gives.
-/

namespace RangeFlow

/-- The constant, if the bound is one, has the property. -/
def Bound.Satisfies (P : Int → Prop) : Bound → Prop
  | const c => P c
  | _ => True

/-- The constant ends of the range have the property. -/
structure ValueRange.Ends (P : Int → Prop) (vr : ValueRange) : Prop where
  low : vr.min.Satisfies P
  high : vr.max.Satisfies P

namespace Bound

variable {P Q : Int → Prop} {ty : ScalarType} {b : Bound}

theorem Satisfies.mono (h : b.Satisfies P) (weaker : ∀ c, P c → Q c) : b.Satisfies Q := by
  cases b with
  | const c => exact weaker c h
  | negInf | symbolic | posInf => trivial

theorem satisfies_of_fits (h : b.Fits ty) : b.Satisfies (ty.fits ·) := by
  cases b with
  | const c => exact h
  | negInf | symbolic | posInf => trivial

theorem near_of_fits (h : b.Fits ty) : b.Satisfies Near :=
  (satisfies_of_fits h).mono fun _ => ScalarType.near_of_fits

/-- The number that a bound stands for is its constant or an end of the type. -/
theorem Satisfies.concrete? {c : Int} (h : b.Satisfies P) (least : P ty.minValue)
    (greatest : P ty.maxValue) (value : b.concrete? ty = some c) : P c := by
  cases b with
  | negInf =>
      cases value
      exact least
  | const d =>
      cases value
      exact h
  | symbolic n offset => cases value
  | posInf =>
      cases value
      exact greatest

theorem Satisfies.near {c : Int} (h : b.Satisfies Near) (value : b.concrete? ty = some c) :
    Near c :=
  h.concrete? ty.near_minValue ty.near_maxValue value

end Bound

namespace ValueRange

variable {P Q : Int → Prop} {ty : ScalarType} {vr : ValueRange}

theorem Ends.mono (h : vr.Ends P) (weaker : ∀ c, P c → Q c) : vr.Ends Q :=
  ⟨h.low.mono weaker, h.high.mono weaker⟩

/-- A proper range has values of its type as constant ends. -/
theorem Proper.const_ends (h : vr.Proper ty) : vr.Ends (ty.fits · = true) :=
  ⟨Bound.satisfies_of_fits h.min_fits, Bound.satisfies_of_fits h.max_fits⟩

theorem ends_singleton {c : Int} (h : P c) : (singleton c).Ends P := ⟨h, h⟩

theorem ends_full (least : P ty.minValue) (greatest : P ty.maxValue) : (full ty).Ends P :=
  ⟨least, greatest⟩

theorem ends_varying (h : P 0) : varying.Ends P := ⟨h, h⟩

theorem Ends.constBounds? {lo hi : Int} (h : vr.Ends P) (least : P ty.minValue)
    (greatest : P ty.maxValue) (ends : vr.constBounds? ty = some (lo, hi)) : P lo ∧ P hi := by
  obtain ⟨low, high⟩ := concrete?_of_constBounds? ends
  exact ⟨h.low.concrete? least greatest low, h.high.concrete? least greatest high⟩

theorem Ends.near {lo hi : Int} (h : vr.Ends Near) (ends : vr.constBounds? ty = some (lo, hi)) :
    Near lo ∧ Near hi :=
  h.constBounds? ty.near_minValue ty.near_maxValue ends

/-- The parts of a complement have constant ends between those of the complement and of the type. -/
theorem ends_of_splitAnti? {first : ValueRange} {second : Option ValueRange} (h : vr.Ends P)
    (convex : ∀ x y z, P x → P z → x ≤ y → y ≤ z → P y) (least : P ty.minValue)
    (greatest : P ty.maxValue) (parts : splitAnti? ty vr = some (first, second)) :
    first.Ends P ∧ ∀ part, second = some part → part.Ends P := by
  unfold splitAnti? at parts
  split at parts
  · split at parts
    · cases parts
    · next lo hi ends =>
        obtain ⟨low, high⟩ := h.constBounds? least greatest ends
        have below : ty.minValue < lo → (range (.const ty.minValue) (.const (lo - 1))).Ends P :=
          fun inside => ⟨least, convex _ _ _ least low (by omega) (by omega)⟩
        have above : hi < ty.maxValue → (range (.const (hi + 1)) (.const ty.maxValue)).Ends P :=
          fun inside => ⟨convex _ _ _ high greatest (by omega) (by omega), greatest⟩
        dsimp only at parts
        split at parts
        · next inside =>
            cases parts
            refine ⟨below inside, fun part found => ?_⟩
            split at found
            · next inside' =>
                cases found
                exact above inside'
            · cases found
        · split at parts
          · next inside =>
              cases parts
              exact ⟨above inside, fun part found => by cases found⟩
          · cases parts
  · cases parts

end ValueRange

namespace Strict

open ValueRange (Ends)

variable {ty : ScalarType} {e : Extent} {a b vr : ValueRange}

/-! ## Normal forms -/

theorem ordered_eq (low : e.min.Satisfies Near) (high : e.max.Satisfies Near) :
    ordered ty e = pure (e.ordered ty) := by
  unfold ordered Extent.ordered
  cases hlo : e.min.concrete? ty with
  | none => rfl
  | some lo =>
      cases hhi : e.max.concrete? ty with
      | none => rfl
      | some hi =>
          simp only [add_eq (high.near hhi) near_one, sub_eq (low.near hlo) near_one, pure_bind]
          cases e.min <;> cases e.max <;> cases e <;>
            simp only [apply_ite (pure : Extent → Strict _)]

/-- Crossing ends are moved towards each other. -/
theorem ordered_near (low : e.min.Satisfies Near) (high : e.max.Satisfies Near) :
    (e.ordered ty).min.Satisfies Near ∧ (e.ordered ty).max.Satisfies Near := by
  unfold Extent.ordered
  split
  · next lo hi hlo hhi =>
      split
      · next crossed =>
          have first := low.near hlo
          have last := high.near hhi
          rw [near_iff] at first last
          have stepped : Near (hi + 1) ∧ Near (lo - 1) :=
            ⟨near_iff.mpr ⟨by omega, by omega⟩, near_iff.mpr ⟨by omega, by omega⟩⟩
          split
          · split
            · exact ⟨near_zero, near_zero⟩
            · split
              · exact stepped
              · exact stepped
          · exact ⟨near_zero, near_zero⟩
      · exact ⟨low, high⟩
  · exact ⟨near_zero, near_zero⟩

theorem preferRange_eq (low : e.min.Satisfies Near) (high : e.max.Satisfies Near) :
    preferRange ty e = pure (e.preferRange ty) := by
  cases e with
  | outside lo hi =>
      simp only [preferRange, Extent.preferRange]
      split
      · rfl
      · split
        · cases last : hi.concrete? ty with
          | none => rfl
          | some d => simp only [add_eq (high.near last) near_one, pure_bind]
        · split
          · cases first : lo.concrete? ty with
            | none => rfl
            | some c => simp only [sub_eq (low.near first) near_one, pure_bind]
          · rfl
  | undefined | inside | varying => rfl

theorem canonical_eq (low : e.min.Satisfies Near) (high : e.max.Satisfies Near) :
    canonical ty e = pure (ValueRange.canonical ty e) := by
  obtain ⟨low', high'⟩ := @ordered_near ty e low high
  cases e with
  | undefined | varying => rfl
  | inside lo hi | outside lo hi =>
      simp only [canonical, ValueRange.canonical, Extent.canonical, ordered_eq low high,
        preferRange_eq low' high', pure_bind]
      split <;> rfl

theorem canonical_inside_eq {lo hi : Bound} (low : lo.Satisfies Near) (high : hi.Satisfies Near) :
    canonical ty (.inside lo hi) = pure (ValueRange.canonical ty (.inside lo hi)) :=
  canonical_eq low high

theorem finish_eq (low : e.min.Satisfies Near) (high : e.max.Satisfies Near) :
    finish ty e = pure (ValueRange.finish ty e) := by
  unfold finish ValueRange.finish
  rw [canonical_eq low high]
  split
  · rfl
  · split <;> rfl

theorem finish_inside_eq {lo hi : Bound} (low : lo.Satisfies Near) (high : hi.Satisfies Near) :
    finish ty (.inside lo hi) = pure (ValueRange.finish ty (.inside lo hi)) :=
  finish_eq low high

theorem splitAnti?_eq (h : vr.Ends Near) :
    splitAnti? ty vr = pure (ValueRange.splitAnti? ty vr) := by
  unfold splitAnti? ValueRange.splitAnti?
  cases vr.extent with
  | outside _ _ =>
      cases ends : vr.constBounds? ty with
      | none => rfl
      | some pair =>
          obtain ⟨low, high⟩ := h.near ends
          simp only [below?, above?, sub_eq low near_one, add_eq high near_one, pure_bind]
          by_cases below : ty.minValue < pair.1 <;> by_cases above : pair.2 < ty.maxValue <;>
            simp [below, above]
  | undefined | inside | varying => rfl

/-! ## Results of bounds -/

theorem boundBinary?_eq {x y : Bound} (op : BinaryOp) (hx : x.Satisfies Near) :
    boundBinary? op ty x y = pure (ValueRange.boundBinary? op ty x y) := by
  unfold boundBinary? ValueRange.boundBinary?
  cases first : x.concrete? ty with
  | none => rfl
  | some c =>
      cases second : y.concrete? ty with
      | none => rfl
      | some d =>
          simp only [applyExact_eq op ty (hx.near first), pure_bind, Option.bind_eq_bind,
            Option.bind_some]
          cases op.applyExact c d ty with
          | none => simp only [Option.bind_none, apply_ite (pure : Option Bound → Strict _)]
          | some exact_ =>
              simp only [Option.bind_some]
              iterate 5
                split
                · rfl
              rfl

theorem results?_eq (op : BinaryOp) {pairs : List (Bound × Bound)}
    (h : ∀ pair ∈ pairs, pair.1.Satisfies Near) :
    results? op ty pairs = pure (pairs.mapM fun (x, y) => ValueRange.boundBinary? op ty x y) := by
  induction pairs with
  | nil => rfl
  | cons pair pairs ih =>
      obtain ⟨x, y⟩ := pair
      have first := h (x, y) (List.mem_cons_self ..)
      have rest := ih fun pair member => h pair (List.mem_cons_of_mem _ member)
      simp only [results?, boundBinary?_eq op first, rest, pure_bind, List.mapM_cons]
      cases ValueRange.boundBinary? op ty x y with
      | none => rfl
      | some first =>
          cases pairs.mapM fun (x, y) => ValueRange.boundBinary? op ty x y with
          | none => rfl
          | some bounds => rfl

theorem foldl_pick_near {pick : Bound → Bound → Bool} {bounds : List Bound} {first : Bound}
    (fits : ∀ bound ∈ first :: bounds, bound.Fits ty) :
    (bounds.foldl (fun m v => if pick v m then v else m) first).Satisfies Near := by
  obtain ⟨head, rest⟩ := List.forall_mem_cons.mp fits
  exact Bound.near_of_fits (ValueRange.foldl_pick_fits head rest)

theorem crossProducts_eq (op : BinaryOp) (h : a.Ends Near) :
    crossProducts op ty a b = pure (ValueRange.crossProducts op ty a b) := by
  unfold crossProducts ValueRange.crossProducts
  extract_lets pairs
  have near : ∀ pair ∈ pairs, pair.1.Satisfies Near := by
    have firsts : ∀ pair ∈ pairs, pair.1 = a.min ∨ pair.1 = a.max := by grind
    intro pair member
    rcases firsts pair member with same | same
    · exact same ▸ h.low
    · exact same ▸ h.high
  rw [results?_eq op near, pure_bind]
  cases products : pairs.mapM fun (x, y) => ValueRange.boundBinary? op ty x y with
  | none => rfl
  | some bounds =>
      cases bounds with
      | nil => rfl
      | cons first rest =>
          have fits : ∀ bound ∈ first :: rest, bound.Fits ty := by
            intro bound member
            obtain ⟨pair, -, result⟩ := ValueRange.exists_of_mem_mapM products member
            exact ValueRange.boundBinary?_fits result
          exact finish_eq (foldl_pick_near fits) (foldl_pick_near fits)

/-! ## Sums and differences -/

theorem sumEnds_eq {x y : Int × Int} (plus : Bool) (hx : Near x.1 ∧ Near x.2)
    (hy : Near y.1 ∧ Near y.2) : sumEnds plus x y = pure (ValueRange.sumEnds plus x y) := by
  simp only [sumEnds, ValueRange.sumEnds, add_eq hx.1 hy.1, add_eq hx.2 hy.2, sub_eq hx.1 hy.2,
    sub_eq hx.2 hy.1, pure_bind, apply_ite (pure : Int × Int → Strict _)]

theorem wrapEnds?_eq (ty : ScalarType) (lo hi : Int) :
    wrapEnds? ty lo hi = pure (ValueRange.wrapEnds? ty lo hi) := by
  have low := ScalarType.near_of_fits (ty.wrap_fits lo)
  have high := ScalarType.near_of_fits (ty.wrap_fits hi)
  simp only [wrapEnds?, ValueRange.wrapEnds?, wrap_eq, add_eq high near_one, sub_eq low near_one,
    pure_bind, apply_ite (pure : Option Extent → Strict _)]

/-- Wrapped ends that are moved by a step are not ends of the type. -/
theorem wrapEnds?_near {lo hi : Int} (h : ValueRange.wrapEnds? ty lo hi = some e) :
    e.min.Satisfies Near ∧ e.max.Satisfies Near := by
  have low := ty.wrap_fits lo
  have high := ty.wrap_fits hi
  have bounds := ScalarType.fits_iff.mp low
  have bounds' := ScalarType.fits_iff.mp high
  unfold ValueRange.wrapEnds? at h
  dsimp only at h
  split at h
  · cases h
    exact ⟨ScalarType.near_of_fits low, ScalarType.near_of_fits high⟩
  · split at h
    · cases h
    · split at h
      · cases h
      · split at h
        · cases h
        · cases h
          have first : ty.fits (ty.wrap hi + 1) = true :=
            ScalarType.fits_iff.mpr ⟨by omega, by omega⟩
          have last : ty.fits (ty.wrap lo - 1) = true :=
            ScalarType.fits_iff.mpr ⟨by omega, by omega⟩
          exact ⟨ScalarType.near_of_fits first, ScalarType.near_of_fits last⟩

theorem sum_eq (plus : Bool) (ha : a.Ends Near) (hb : b.Ends Near) :
    sum plus ty a b = pure (ValueRange.sum plus ty a b) := by
  have saturated (value : Int) : (ValueRange.saturate ty value).Satisfies Near :=
    Bound.near_of_fits (ValueRange.saturate_fits ty value)
  have end_near {p : Bool} {value : Int} {infinity : Bound} (h : infinity.Satisfies Near) :
      (if p then infinity else ValueRange.saturate ty value).Satisfies Near := by
    split
    · exact h
    · exact saturated value
  unfold sum ValueRange.sum
  cases a.extent <;> cases b.extent <;> try rfl
  cases ends0 : a.constBounds? ty with
  | none => rfl
  | some pair0 =>
      cases ends1 : b.constBounds? ty with
      | none => rfl
      | some pair1 =>
          simp only [sumEnds_eq plus (ha.near ends0) (hb.near ends1), wrapEnds?_eq, pure_bind]
          split
          · cases wrapped : ValueRange.wrapEnds? ty (ValueRange.sumEnds plus pair0 pair1).1
              (ValueRange.sumEnds plus pair0 pair1).2 with
            | none => rfl
            | some extent =>
                obtain ⟨low, high⟩ := wrapEnds?_near wrapped
                exact finish_eq low high
          · exact finish_eq (end_near trivial) (end_near trivial)

/-! ## Quotients, remainders and extrema -/

theorem absExtent_eq (h : vr.Ends Near) :
    absExtent ty vr = pure (ValueRange.absExtent ty vr) := by
  unfold absExtent ValueRange.absExtent
  cases vr.usesInfinity with
  | true => rfl
  | false =>
      cases ends : vr.constBounds? ty with
      | none => rfl
      | some pair =>
          obtain ⟨low, high⟩ := h.near ends
          have magnitude : Near (Max.max (pair.1.natAbs : Int) (pair.2.natAbs : Int)) := by
            rw [near_iff] at *
            omega
          have opposite : (Bound.const (-Max.max (pair.1.natAbs : Int) pair.2.natAbs)).Satisfies
              Near := by
            rw [near_iff] at magnitude
            exact near_iff.mpr ⟨by omega, by omega⟩
          have greatest : (Bound.const (Max.max (pair.1.natAbs : Int) pair.2.natAbs)).Satisfies
              Near := magnitude
          simp only [abs_eq low, abs_eq high, neg_eq magnitude, pure_bind]
          rw [canonical_inside_eq opposite greatest]
          cases ty.fits (Max.max (pair.1.natAbs : Int) pair.2.natAbs) <;>
            cases ty.fits (-Max.max (pair.1.natAbs : Int) pair.2.natAbs) <;> rfl

theorem quotientTowardsZero_eq (h : a.Ends Near) :
    quotientTowardsZero ty a = pure (ValueRange.quotientTowardsZero ty a) := by
  have zero : (Bound.const 0).Satisfies Near := near_zero
  unfold quotientTowardsZero ValueRange.quotientTowardsZero
  dsimp only
  cases Bound.compare ty a.min (.const 0) <;> cases Bound.compare ty a.max (.const 0) <;>
    first
    | rfl
    | exact finish_inside_eq zero zero
    | exact finish_inside_eq zero h.high
    | exact finish_inside_eq h.low zero
    | exact finish_inside_eq h.low h.high

theorem quotientOfInterval_eq (op : BinaryOp) (h : a.Ends Near) :
    quotientOfInterval op ty a b = pure (ValueRange.quotientOfInterval op ty a b) := by
  simp only [quotientOfInterval, ValueRange.quotientOfInterval, crossProducts_eq op h,
    quotientTowardsZero_eq h, absExtent_eq h, apply_ite (pure : ValueRange → Strict _)]

theorem quotient_eq (op : BinaryOp) (h : a.Ends Near) :
    quotient op ty a b = pure (ValueRange.quotient op ty a b) := by
  have all := ValueRange.ends_full ty.near_minValue ty.near_maxValue
  simp only [quotient, ValueRange.quotient, quotientOfInterval_eq op h,
    quotientOfInterval_eq op all, apply_ite (pure : ValueRange → Strict _)]

theorem remainder_eq (h : b.Ends Near) :
    remainder ty a b = pure (ValueRange.remainder ty a b) := by
  unfold remainder ValueRange.remainder
  cases b.rangeExcludesZero ty && !b.min.isMin ty with
  | false => rfl
  | true =>
      cases ends : b.constBounds? ty with
      | none => rfl
      | some pair =>
          obtain ⟨low, high⟩ := h.near ends
          have greatest : Near (Max.max (pair.1.natAbs : Int) pair.2) := by
            rw [near_iff] at *
            omega
          have limit : Near (ValueRange.remainderLimit pair) := by
            unfold ValueRange.remainderLimit
            rw [near_iff] at *
            omega
          have opposite : Near (-ValueRange.remainderLimit pair) := by
            rw [near_iff] at *
            omega
          simp only [abs_eq low, sub_eq greatest near_one, pure_bind]
          rw [← ValueRange.remainderLimit, neg_eq limit]
          split
          · exact finish_inside_eq near_zero limit
          · exact finish_inside_eq opposite limit

theorem lesser?_eq {x y m : Bound} (h : ValueRange.lesser? ty x y = some m) : m = x ∨ m = y := by
  unfold ValueRange.lesser? at h
  grind

theorem greater?_eq {x y m : Bound} (h : ValueRange.greater? ty x y = some m) : m = x ∨ m = y := by
  unfold ValueRange.greater? at h
  grind

theorem extremumEnds?_near {least : Bool} {low high : Bound} (ha : a.Ends Near) (hb : b.Ends Near)
    (h : ValueRange.extremumEnds? least ty a b = some (low, high)) :
    low.Satisfies Near ∧ high.Satisfies Near := by
  have bottom : (Bound.const ty.minValue).Satisfies Near := ty.near_minValue
  have top : (Bound.const ty.maxValue).Satisfies Near := ty.near_maxValue
  have picked : (low = a.min ∨ low = b.min ∨ low = .const ty.minValue) ∧
      (high = a.max ∨ high = b.max ∨ high = .const ty.maxValue) := by
    unfold ValueRange.extremumEnds? at h
    grind [lesser?_eq, greater?_eq]
  grind [ha.low, ha.high, hb.low, hb.high]

theorem extremum_eq (least : Bool) (ha : a.Ends Near) (hb : b.Ends Near) :
    extremum least ty a b = pure (ValueRange.extremum least ty a b) := by
  unfold extremum ValueRange.extremum
  cases ends : ValueRange.extremumEnds? least ty a b with
  | none => rfl
  | some pair =>
      obtain ⟨low, high⟩ := extremumEnds?_near ha hb ends
      exact finish_eq low high

end Strict

end RangeFlow
