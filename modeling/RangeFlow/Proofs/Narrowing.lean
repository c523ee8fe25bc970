import RangeFlow.Analysis.Engine
import RangeFlow.Proofs.BinaryResults
import RangeFlow.Proofs.CanonicalForms
import RangeFlow.Proofs.DecidedConditions
import RangeFlow.Proofs.TripCount

/-! # Narrowing keeps the values of a loop variable

A loop variable that starts at a value and moves by a constant step stays on the far side of its
first value, and on the near side of the value after the most rounds it can take. Narrowing cuts a
range at these two places. The second is computed in the type of the variable. Where overflow is
undefined, a place outside the type is an end of the type and nothing is cut. Where results wrap,
the computed place means something only if it lies in the type.
-/

namespace RangeFlow

namespace Direction

/-- Does a move in this direction lead from the one number to the other? -/
def Leads : Direction → Int → Int → Prop
  | increasing, a, b => a ≤ b
  | decreasing, a, b => b ≤ a
  | unknown, _, _ => True

theorem ofStep_eq_increasing {step : Int} : ofStep step = increasing ↔ 0 < step := by
  unfold ofStep
  split
  · next up => simp [up]
  · next up => split <;> simp [up]

theorem ofStep_eq_decreasing {step : Int} : ofStep step = decreasing ↔ step < 0 := by
  unfold ofStep
  split
  · next up => exact iff_of_false nofun (by omega)
  · split
    · next down => simp [down]
    · next down => simp [down]

theorem leads_ofStep (start step : Int) {j k : Nat} (order : j ≤ k) :
    (ofStep step).Leads (start + j * step) (start + k * step) := by
  have rounds : (j : Int) ≤ k := Int.ofNat_le.mpr order
  unfold ofStep
  split
  · next up =>
      have further := Int.mul_le_mul_of_nonneg_right rounds (Int.le_of_lt up)
      simp only [Leads]
      omega
  · split
    · next down =>
        have further := Int.mul_le_mul_of_nonpos_right rounds (Int.le_of_lt down)
        simp only [Leads]
        omega
    · trivial

end Direction

namespace Evolution

/-- The value in the last of so many rounds. -/
def lastValue (env : NameId → Int) (ev : Evolution) (trips : Nat) : Int :=
  ev.init.reading env + ev.step * ((trips - 1 : Nat) : Int)

/-- The evolution tells the truth about the first value, which is a value of the type and known to
    be possible, and about the direction. -/
structure Starts (query : Query) (env : NameId → Int) (ty : ScalarType) (ev : Evolution) :
    Prop where
  direction : ev.direction = .ofStep ev.step
  known : (query.operandRange ev.init).Holds env ty (ev.init.reading env)
  fits_init : ty.fits (ev.init.reading env) = true

/-- The evolution tells the truth about the values of a name in the rounds of a loop: each is a step
    away from the one before, all are values of the type, and there are no more rounds than
    counted. -/
structure Traces (query : Query) (env : NameId → Int) (ty : ScalarType) (rounds : Nat)
    (values : Nat → Int) (ev : Evolution) : Prop extends ev.Starts query env ty where
  evolves : ∀ k < rounds, values k = ev.init.reading env + k * ev.step
  fits : ∀ k < rounds, ty.fits (values k) = true
  counted : ∀ trips, ev.tripCount = some trips → rounds ≤ trips

/-- The last value lies in the type wherever results wrap. -/
def LastFits (env : NameId → Int) (ty : ScalarType) (ev : Evolution) : Prop :=
  ∀ trips, ev.tripCount = some trips →
    ty.overflowUndefined = true ∨ ty.fits (ev.lastValue env trips) = true

/-- The number lies on the way from the first value to the last one. -/
structure OnWay (env : NameId → Int) (ev : Evolution) (x : Int) : Prop where
  left : ev.direction.Leads (ev.init.reading env) x
  ahead : ∀ trips, ev.tripCount = some trips → ev.direction.Leads x (ev.lastValue env trips)

variable {query : Query} {env : NameId → Int} {ty : ScalarType} {rounds : Nat} {values : Nat → Int}
  {ev : Evolution}

theorem Traces.onWay (traced : ev.Traces query env ty rounds values) {k : Nat} (hk : k < rounds) :
    ev.OnWay env (values k) := by
  constructor
  · have way := Direction.leads_ofStep (ev.init.reading env) ev.step (Nat.zero_le k)
    rw [traced.direction, traced.evolves k hk]
    simpa using way
  · intro trips counted
    have enough := traced.counted trips counted
    have way := @Direction.leads_ofStep (ev.init.reading env) ev.step k (trips - 1) (by omega)
    rw [traced.direction, traced.evolves k hk, lastValue, Int.mul_comm ev.step]
    exact way

/-- Where the last value leaves the type, every value of the type after the first one lies on the
    way to it. -/
theorem Starts.onWay (starts : ev.Starts query env ty) {x : Int} (hx : ty.fits x = true)
    (left : ev.direction.Leads (ev.init.reading env) x)
    (leaves : ∀ trips, ev.tripCount = some trips → ty.fits (ev.lastValue env trips) = false) :
    ev.OnWay env x := by
  refine ⟨left, fun trips counted => ?_⟩
  have way := Direction.leads_ofStep (ev.init.reading env) ev.step (Nat.zero_le (trips - 1))
  have first := ScalarType.fits_iff.mp starts.fits_init
  have outside : ¬ _ := Bool.eq_false_iff.mp (leaves trips counted)
  rw [ScalarType.fits_iff] at hx outside
  rw [starts.direction]
  unfold lastValue at outside ⊢
  rw [Int.mul_comm ev.step] at outside ⊢
  generalize Direction.ofStep ev.step = direction at way ⊢
  cases direction with
  | increasing | decreasing =>
      simp only [Direction.Leads] at way ⊢
      omega
  | unknown => trivial

end Evolution

theorem Bound.isLower_ite {ty : ScalarType} {p : Prop} [Decidable p] {a b : Bound}
    (ha : a.IsLower ty) (hb : b.IsLower ty) : (if p then a else b).IsLower ty := by
  split <;> assumption

theorem Bound.isUpper_ite {ty : ScalarType} {p : Prop} [Decidable p] {a b : Bound}
    (ha : a.IsUpper ty) (hb : b.IsUpper ty) : (if p then a else b).IsUpper ty := by
  split <;> assumption

theorem Bound.reading_le_of_isLe {ty : ScalarType} {a b : Bound} (env : NameId → Int)
    (ha : a.Fits ty) (hb : b.Fits ty) (order : (compare ty a b).isLe = true) :
    a.reading env ty ≤ b.reading env ty := by
  cases compared : compare ty a b with
  | less => exact reading_le_of_less ha hb compared
  | equal => rw [eq_of_compare_equal compared]
  | greater | notEqual | unknown =>
      rw [compared] at order
      cases order

namespace ValueRange

variable {env : NameId → Int} {ty : ScalarType} {a : ValueRange} {v x w : Int}

/-- Ends that give an interval are the ends of that interval. -/
theorem finish_inside_extent {lo hi : Bound} (low : lo.Fits ty) (high : hi.Fits ty)
    (interval : (finish ty (.inside lo hi)).isRange = true) :
    (finish ty (.inside lo hi)).extent = .inside lo hi := by
  unfold finish at interval ⊢
  split at interval
  · cases interval
  · next limited =>
      rw [if_neg limited]
      split at interval
      · next order =>
          rw [if_pos order]
          simp only [canonical, ofExtent, isRange] at interval ⊢
          cases named : (Extent.inside lo hi).isSymbolic with
          | true => exact Extent.canonical_of_isSymbolic named
          | false =>
              have sorted := Bound.reading_le_of_isLe (fun _ => 0) low high order
              rw [Extent.canonical_of_le _ rfl named sorted] at interval ⊢
              rcases Extent.dropFull_eq ty ((Extent.inside lo hi).preferRange ty) with none | kept
              · rw [none] at interval
                cases interval
              · exact kept
      · cases interval

/-- A complement that leaves out neither end of the type does not become an interval. -/
theorem finish_outside_isRange {c d : Int} (hc : ty.fits c = true) (hd : ty.fits d = true)
    (low : ty.minValue < c) (high : d < ty.maxValue) :
    (finish ty (.outside (.const c) (.const d))).isRange = false := by
  have first := Extent.isMin_const_of_lt low
  have last := Extent.isMax_const_of_lt high
  unfold finish
  split
  · rfl
  · split
    · next order =>
        have sorted : c ≤ d :=
          @Bound.reading_le_of_isLe ty (.const c) (.const d) (fun _ => 0) hc hd order
        simp only [canonical, ofExtent, isRange, Extent.canonical_outside_of_le sorted,
          Extent.preferRange, first, last, Bool.false_and, Bool.false_eq_true, if_false,
          Extent.dropFull, Extent.isRange]
    · rfl

/-- Ends that give an interval when they are wrapped lie on one side of the type. -/
theorem wrapEnds?_isRange {lo hi : Int} {e : Extent} (h : wrapEnds? ty lo hi = some e)
    (interval : (finish ty e).isRange = true) :
    sideOf ty lo = sideOf ty hi ∧
      (finish ty e).extent = .inside (.const (ty.wrap lo)) (.const (ty.wrap hi)) := by
  have low := ty.wrap_fits lo
  have high := ty.wrap_fits hi
  unfold wrapEnds? at h
  dsimp only at h
  split at h
  · next sameSide =>
      cases h
      exact ⟨sameSide, finish_inside_extent low high interval⟩
  · split at h
    · cases h
    · split at h
      · cases h
      · split at h
        · cases h
        · cases h
          rw [ScalarType.fits_iff] at low high
          have start : ty.fits (ty.wrap hi + 1) = true :=
            ScalarType.fits_iff.mpr ⟨by omega, by omega⟩
          have stop : ty.fits (ty.wrap lo - 1) = true :=
            ScalarType.fits_iff.mpr ⟨by omega, by omega⟩
          rw [finish_outside_isRange start stop (by omega) (by omega)] at interval
          cases interval

theorem splitAnti?_of_isRange (interval : a.isRange = true) : splitAnti? ty a = none := by
  obtain ⟨lo, hi, extent⟩ := exists_inside interval
  rw [splitAnti?, extent]

/-- A sum of two intervals that is an interval is the sum of their ends. -/
theorem binary_add_of_isRange {b : ValueRange} (integral : ty.isIntegral = true)
    (first : a.isRange = true) (second : b.isRange = true)
    (interval : (binary .add ty a b).isRange = true) : binary .add ty a b = sum true ty a b := by
  rw [binary_of_isIntegral integral, splitAnti?_of_isRange first] at interval ⊢
  dsimp only at interval ⊢
  rw [binaryOfSplitRight, splitAnti?_of_isRange second] at interval ⊢
  dsimp only at interval ⊢
  obtain ⟨_, _, extent⟩ := exists_inside first
  obtain ⟨_, _, extent'⟩ := exists_inside second
  have seen : a.isUndefined = false := by simp [isUndefined, extent]
  have seen' : b.isUndefined = false := by simp [isUndefined, extent']
  simp only [integerBinary, seen, seen', Bool.false_and, Bool.false_eq_true, if_false]
    at interval ⊢
  split at interval
  · cases interval
  · next full => rw [if_neg full]

section

variable {low high : Bound} {lo hi : Int}

/-- The sum of an interval and a number, where results wrap, comes from one side of the type if it
    is an interval. -/
theorem sum_singleton_of_wraps (extent : a.extent = .inside low high)
    (ends : a.constBounds? ty = some (lo, hi)) (wraps : ty.wraps = true)
    (interval : (sum true ty a (singleton w)).isRange = true) :
    sideOf ty (lo + w) = sideOf ty (hi + w) ∧ (sum true ty a (singleton w)).extent =
      .inside (.const (ty.wrap (lo + w))) (.const (ty.wrap (hi + w))) := by
  have result : sum true ty a (singleton w) =
      ((wrapEnds? ty (lo + w) (hi + w)).map (finish ty)).getD varying := by
    unfold sum
    rw [extent, ends]
    refine (if_pos wraps).trans ?_
    dsimp only [sumEnds, if_true]
    cases wrapEnds? ty (lo + w) (hi + w) with
    | none => rfl
    | some e => rfl
  cases wrapped : wrapEnds? ty (lo + w) (hi + w) with
  | none =>
      rw [result, wrapped] at interval
      cases interval
  | some e =>
      rw [result, wrapped] at interval ⊢
      exact wrapEnds?_isRange wrapped interval

/-- The sum of an interval and a number, where overflow is undefined, encloses what the exact ends
    enclose within the type. -/
theorem sum_singleton_of_not_wraps (extent : a.extent = .inside low high)
    (ends : a.constBounds? ty = some (lo, hi)) (strict : ty.wraps = false)
    (interval : (sum true ty a (singleton w)).isRange = true) (hx : ty.fits x = true) :
    (lo + w ≤ x → (sum true ty a (singleton w)).min.reading env ty ≤ x) ∧
      (x ≤ hi + w → x ≤ (sum true ty a (singleton w)).max.reading env ty) := by
  obtain ⟨p, q, result⟩ : ∃ p q : Bool, sum true ty a (singleton w) =
      finish ty (.inside (if p then .negInf else saturate ty (lo + w))
        (if q then .posInf else saturate ty (hi + w))) := by
    refine ⟨ty.overflowUndefined && (a.min == .negInf || (singleton w).min == .negInf),
      ty.overflowUndefined && (a.max == .posInf || (singleton w).max == .posInf), ?_⟩
    unfold sum
    rw [extent, ends]
    exact if_neg (Bool.eq_false_iff.mp strict)
  rw [result] at interval ⊢
  have first : (if p then .negInf else saturate ty (lo + w)).Fits ty :=
    Bound.fits_ite trivial (saturate_fits ty _)
  have last : (if q then .posInf else saturate ty (hi + w)).Fits ty :=
    Bound.fits_ite trivial (saturate_fits ty _)
  rw [ValueRange.min, ValueRange.max, finish_inside_extent first last interval]
  have limits := ScalarType.fits_iff.mp hx
  exact ⟨fun le => Bound.ite_reading_le limits.1 (saturate_le hx le),
    fun le => Bound.le_ite_reading limits.2 (le_saturate hx le)⟩

end

theorem Holds.eq_of_single? {c : Int} (known : a.Holds env ty v) (single : a.single? = some c) :
    v = c := by
  unfold single? at single
  split at single
  · next lo hi extent =>
      split at single
      · next same =>
          cases single
          rw [Holds, extent] at known
          obtain ⟨above, below⟩ := known
          simp only [Bound.reading_const] at above below
          omega
      · cases single
  · cases single

theorem Proper.fits_of_single? {c : Int} (proper : a.Proper ty) (single : a.single? = some c) :
    ty.fits c = true := by
  unfold single? at single
  split at single
  · next lo hi extent =>
      split at single
      · cases single
        rw [Proper, extent] at proper
        exact Bound.isLower_const.mp proper.lower
      · cases single
  · cases single

theorem isRange_of_plain (vr : ValueRange) (plain : vr.isAnti = false)
    (known : ¬ (vr.isVarying || vr.isUndefined) = true) : vr.isRange = true := by
  obtain ⟨extent, equiv⟩ := vr
  cases extent with
  | inside => rfl
  | outside => cases plain
  | undefined | varying => exact absurd rfl known

theorem sideOf_eq_below : sideOf ty x = .below ↔ x < ty.minValue := by
  unfold sideOf
  split
  · next below => simp [below]
  · next notBelow => split <;> simp [notBelow]

theorem sideOf_eq_above : sideOf ty x = .above ↔ ty.maxValue < x := by
  have least := ty.minValue_nonpos
  have greatest := ty.maxValue_nonneg
  unfold sideOf
  split
  · next below => exact iff_of_false nofun (by omega)
  · split
    · next above => simp [above]
    · next notAbove => simp [notAbove]

/-- The last value of a name lies within the computed sum, on the side that it moves to. A number
    that is added modulo the size of the type may move the sum around the ends of the type, but a
    value that stays in the type is found there. -/
theorem add_singleton_encloses {delta : Int} (integral : ty.isIntegral = true)
    (interval : a.isRange = true) (small : ty.fits delta = true ∨ ty.signed = false)
    (known : a.Holds env ty v) (hv : ty.fits v = true)
    (stays : ty.overflowUndefined = true ∨ ty.fits (v + delta) = true)
    (result : (binary .add ty a (singleton (ty.wrap delta))).isRange = true)
    (hx : ty.fits x = true) :
    (0 ≤ delta → x ≤ v + delta →
      x ≤ (binary .add ty a (singleton (ty.wrap delta))).max.reading env ty) ∧
    (delta ≤ 0 → v + delta ≤ x →
      (binary .add ty a (singleton (ty.wrap delta))).min.reading env ty ≤ x) := by
  have exact_ := binary_add_of_isRange integral interval rfl result
  rw [exact_] at result ⊢
  obtain ⟨low, high, extent⟩ := exists_inside interval
  cases ends : a.constBounds? ty with
  | none =>
      rw [sum, extent, ends] at result
      cases result
  | some bounds =>
      obtain ⟨lo, hi⟩ := bounds
      obtain ⟨start, stop⟩ := known.within_constBounds? interval ends
      cases wraps : ty.wraps with
      | false =>
          have undefined := ScalarType.overflowUndefined_of_not_wraps integral wraps
          have signed := ScalarType.signed_of_overflowUndefined undefined
          have fits : ty.fits delta = true := small.resolve_right (by simp [signed])
          rw [ScalarType.wrap_of_fits fits] at result ⊢
          obtain ⟨least, greatest⟩ := sum_singleton_of_not_wraps extent ends wraps result hx
          exact ⟨fun _ le => greatest (by omega), fun _ le => least (by omega)⟩
      | true =>
          have defined : ty.overflowUndefined = false := by
            simp [ScalarType.overflowUndefined, wraps]
          have last : ty.fits (v + delta) = true := stays.resolve_left (by simp [defined])
          obtain ⟨same, written⟩ := sum_singleton_of_wraps extent ends wraps result
          have below := sideOf_eq_below.symm.trans ((Eq.congr_left same).trans sideOf_eq_below)
          have above := sideOf_eq_above.symm.trans ((Eq.congr_left same).trans sideOf_eq_above)
          rw [ValueRange.min, ValueRange.max, written]
          simp only [Extent.min, Extent.max, Bound.reading_const]
          by_cases fits : ty.fits delta = true
          · rw [ScalarType.wrap_of_fits fits] at below above ⊢
            rw [ScalarType.fits_iff] at last
            have first : ty.fits (lo + delta) = true :=
              ScalarType.fits_iff.mpr ⟨by omega, by omega⟩
            have final : ty.fits (hi + delta) = true :=
              ScalarType.fits_iff.mpr ⟨by omega, by omega⟩
            rw [ScalarType.wrap_of_fits first, ScalarType.wrap_of_fits final]
            exact ⟨fun _ le => by omega, fun _ le => by omega⟩
          · -- the name moves down, and the number added in its place passes the greatest value
            have least := ScalarType.minValue_of_not_signed (small.resolve_left fits)
            have size := ty.size_eq
            rw [ScalarType.fits_iff] at hv last fits
            have down : ty.wrap delta = delta + ty.size :=
              ScalarType.wrap_of_below (by omega) (by omega)
            rw [down] at above ⊢
            rw [ScalarType.wrap_of_above (x := lo + (delta + ty.size)) (by omega) (by omega)]
            exact ⟨fun up => by omega, fun _ le => by omega⟩

end ValueRange

namespace Query

variable {query : Query} {env : NameId → Int} {ty : ScalarType} {ev : Evolution} {vr : ValueRange}
  {x : Int}

theorem boundOf_reading {operand : Operand}
    (known : (query.operandRange operand).Holds env ty (operand.reading env)) :
    (query.boundOf operand).reading env ty = operand.reading env := by
  unfold boundOf
  cases operand with
  | const c => rfl
  | name n =>
      split
      · next c single => exact (known.eq_of_single? single).symm
      · exact Int.add_zero _

/-- The computed last value is not passed on the way. -/
theorem lastValueEnds_ahead (integral : ty.isIntegral = true) (starts : ev.Starts query env ty)
    (last : ev.LastFits env ty) (hx : ty.fits x = true) (way : ev.OnWay env x) :
    (ev.direction = .increasing → x ≤ (query.lastValueEnds ty ev).2.reading env ty) ∧
      (ev.direction = .decreasing → (query.lastValueEnds ty ev).1.reading env ty ≤ x) := by
  have limits := ScalarType.fits_iff.mp hx
  unfold lastValueEnds
  dsimp only
  split
  · next delta computed =>
      split
      · next usable =>
          obtain ⟨interval, small⟩ := Bool.and_eq_true_iff.mp usable
          split
          · next result =>
              obtain ⟨trips, counted, computed⟩ := Option.bind_eq_some_iff.mp computed
              obtain ⟨rounds, fits, product⟩ := Option.bind_eq_some_iff.mp computed
              cases Wide.eq_of_check fits
              cases Wide.eq_of_check product
              have many : 0 ≤ ((trips - 1 : Nat) : Int) := Int.natCast_nonneg _
              have small : ty.fits (ev.step * ((trips - 1 : Nat) : Int)) = true ∨
                  ty.signed = false := by simpa using small
              obtain ⟨up, down⟩ := ValueRange.add_singleton_encloses integral interval small
                starts.known starts.fits_init (last trips counted) result hx
              have ahead := way.ahead trips counted
              refine ⟨fun increasing => up ?_ ?_, fun decreasing => down ?_ ?_⟩
              · rw [starts.direction, Direction.ofStep_eq_increasing] at increasing
                exact Int.mul_nonneg (Int.le_of_lt increasing) many
              · rw [increasing] at ahead
                exact ahead
              · rw [starts.direction, Direction.ofStep_eq_decreasing] at decreasing
                exact Int.mul_nonpos_of_nonpos_of_nonneg (Int.le_of_lt decreasing) many
              · rw [decreasing] at ahead
                exact ahead
          · exact ⟨fun _ => limits.2, fun _ => limits.1⟩
      · exact ⟨fun _ => limits.2, fun _ => limits.1⟩
  · exact ⟨fun _ => limits.2, fun _ => limits.1⟩

/-- The ends of an evolving name enclose what the range holds on the way: each of them is an end of
    the range, the first value, or the computed last value. -/
theorem holds_evolvedEnds (integral : ty.isIntegral = true) (starts : ev.Starts query env ty)
    (last : ev.LastFits env ty) (moves : ev.direction ≠ .unknown) (hx : ty.fits x = true)
    (way : ev.OnWay env x) (plain : vr.isAnti = false) (holds : vr.Holds env ty x) :
    (Extent.inside (query.evolvedEnds ty ev vr).1 (query.evolvedEnds ty ev vr).2).Holds env ty
      x := by
  have first := boundOf_reading starts.known
  obtain ⟨up, down⟩ := lastValueEnds_ahead integral starts last hx way
  have left := way.left
  rw [← first] at left
  unfold evolvedEnds
  dsimp only
  cases direction : ev.direction with
  | unknown => exact absurd direction moves
  | increasing =>
      rw [direction] at left
      have up := up direction
      split
      · exact ⟨left, up⟩
      · next known =>
          have within := holds.within (vr.isRange_of_plain plain known)
          exact ⟨Bound.ite_reading_le left within.1, Bound.le_ite_reading up within.2⟩
  | decreasing =>
      rw [direction] at left
      have down := down direction
      split
      · exact ⟨down, left⟩
      · next known =>
          have within := holds.within (vr.isRange_of_plain plain known)
          exact ⟨Bound.ite_reading_le down within.1, Bound.le_ite_reading left within.2⟩

theorem narrow_holds (integral : ty.isIntegral = true) (starts : ev.Starts query env ty)
    (last : ev.LastFits env ty) (hx : ty.fits x = true) (way : ev.OnWay env x)
    (holds : vr.Holds env ty x) : (query.narrow ty ev vr).Holds env ty x := by
  unfold narrow
  split
  · exact holds
  · next usable =>
      simp only [Bool.or_eq_true, decide_eq_true_eq, not_or, Bool.not_eq_true] at usable
      dsimp only
      split
      · exact holds
      · rw [ValueRange.Holds, ValueRange.withEquiv_extent]
        exact holds_evolvedEnds integral starts last usable.1.2 hx way usable.1.1 holds

section Proper

variable (hq : query.Proper) (tracked : ty.isTracked = true) (init : query.Typed ty ev.init)

include hq tracked init

/-- The bound of a first value that fits the type can stand on both sides. -/
theorem boundOf_sided : (query.boundOf ev.init).IsLower ty ∧ (query.boundOf ev.init).IsUpper ty := by
  have number : ∀ {c}, ty.fits c = true → (Bound.const c).IsLower ty ∧ (Bound.const c).IsUpper ty :=
    fun fits => ⟨Bound.isLower_const.mpr fits, Bound.isUpper_const.mpr fits⟩
  have proper := operandRange_proper hq tracked init
  unfold boundOf
  cases start : ev.init with
  | const c =>
      rw [start] at init
      exact number init
  | name n =>
      rw [start] at proper
      split
      · next c single => exact number (proper.fits_of_single? single)
      · exact ⟨⟨trivial, nofun⟩, trivial, nofun⟩

theorem lastValueEnds_sided :
    (query.lastValueEnds ty ev).1.IsLower ty ∧ (query.lastValueEnds ty ev).2.IsUpper ty := by
  have typeEnds : (Bound.const ty.minValue).IsLower ty ∧ (Bound.const ty.maxValue).IsUpper ty :=
    ⟨Bound.isLower_const.mpr (Extent.fits_minValue ty),
      Bound.isUpper_const.mpr (Extent.fits_maxValue ty)⟩
  unfold lastValueEnds
  dsimp only
  split
  · split
    · split
      · next range_ =>
          refine (ValueRange.binary_proper .add fun _ => ?_).ends range_
          exact ⟨operandRange_proper hq tracked init, ValueRange.singleton_proper (ty.wrap_fits _)⟩
      · exact typeEnds
    · exact typeEnds
  · exact typeEnds

/-- Narrowing by an evolution that starts with a value of the type keeps a range proper. -/
theorem narrow_proper (h : vr.Proper ty) : (query.narrow ty ev vr).Proper ty := by
  obtain ⟨initLower, initUpper⟩ := boundOf_sided hq tracked init
  obtain ⟨lastLower, lastUpper⟩ := lastValueEnds_sided hq tracked init
  have ends : vr.isAnti = false → (query.evolvedEnds ty ev vr).1.IsLower ty ∧
      (query.evolvedEnds ty ev vr).2.IsUpper ty := by
    intro plain
    unfold evolvedEnds
    dsimp only
    split
    · split
      · exact ⟨lastLower, initUpper⟩
      · exact ⟨initLower, lastUpper⟩
    · next known =>
        obtain ⟨lower, upper⟩ := ValueRange.Proper.ends h (vr.isRange_of_plain plain known)
        split
        · exact ⟨Bound.isLower_ite lastLower lower, Bound.isUpper_ite initUpper upper⟩
        · exact ⟨Bound.isLower_ite initLower lower, Bound.isUpper_ite lastUpper upper⟩
  unfold narrow
  split
  · exact h
  · next usable =>
      simp only [Bool.or_eq_true, decide_eq_true_eq, not_or, Bool.not_eq_true] at usable
      dsimp only
      split
      · exact h
      · rw [ValueRange.Proper, ValueRange.withEquiv_extent]
        exact .inside (ends usable.1.1).1 (ends usable.1.1).2

end Proper

end Query

namespace Engine

variable {en : Engine} {s : EngineState} {block : BlockId} {dest : NameId} {env : NameId → Int}
  {ty : ScalarType} {vr : ValueRange} {rounds : Nat} {values : Nat → Int}

/-- Narrowing keeps the values that a name takes at the head of its loop, if the oracle tells the
    truth about them, and if the last value of as many rounds as it counts lies in the type wherever
    results wrap. Where overflow is undefined, a last value outside the type cuts nothing off: every
    value after the first one is kept. -/
theorem narrow_holds_rounds (integral : ty.isIntegral = true)
    (truthful : ∀ ev, en.evolutionAt? block dest = some ev →
      ev.Traces s.table.query env ty rounds values)
    (last : ∀ ev, en.evolutionAt? block dest = some ev → ev.LastFits env ty)
    (held : ∀ k < rounds, vr.Holds env ty (values k)) :
    (∀ k < rounds, (en.narrow s block dest ty vr).Holds env ty (values k)) ∧
    ∀ ev trips, en.evolutionAt? block dest = some ev → ev.tripCount = some trips →
      ty.fits (ev.lastValue env trips) = false → ∀ x, ty.fits x = true →
        ev.direction.Leads (ev.init.reading env) x → vr.Holds env ty x →
          (en.narrow s block dest ty vr).Holds env ty x := by
  have keeps : ∀ x, vr.Holds env ty x →
      (∀ ev, en.evolutionAt? block dest = some ev → ty.fits x = true ∧ ev.OnWay env x) →
        (en.narrow s block dest ty vr).Holds env ty x := by
    intro x holds way
    unfold narrow
    split
    · split
      · next ev known =>
          obtain ⟨hx, way⟩ := way ev known
          have starts := (truthful ev known).toStarts
          exact Query.narrow_holds integral starts (last ev known) hx way holds
      · exact holds
    · exact holds
  constructor
  · intro k hk
    exact keeps _ (held k hk) fun ev known =>
      ⟨(truthful ev known).fits k hk, (truthful ev known).onWay hk⟩
  · intro ev trips known counted leaves x hx left holds
    refine keeps x holds fun ev' known' => ⟨hx, ?_⟩
    cases known.symm.trans known'
    refine (truthful ev known).toStarts.onWay hx left fun trips' counted' => ?_
    cases counted.symm.trans counted'
    exact leaves

end Engine

/-- What is told about the counter that counts to two: it steps up from zero, and the head of its
    loop is executed at most so often. -/
def countToTwoEvolution (trips : Nat) : Evolution where
  init := .const 0
  step := 1
  direction := .increasing
  noWrap := true
  tripCount := some trips

/-- The propagation over the counter with an oracle that counts so many rounds. -/
def countToTwoEngine (trips : Nat) : Engine :=
  .ofFunction countToTwo {} (.ofList [(0, countToTwoEvolution trips)])

theorem evolutionAt?_countToTwoEngine (trips : Nat) :
    (countToTwoEngine trips).evolutionAt? 1 0 = some (countToTwoEvolution trips) := by
  have loops : (countToTwoEngine trips).loops.loops = [headTestedLoop] := headTested_loops
  rw [Engine.evolutionAt?, LoopForest.forHeader?, loops]
  rfl

/-- Any count of three or more is right: the counter is zero, one and two. -/
theorem traces_countToTwo (query : Query) {trips : Nat} (enough : 3 ≤ trips) :
    (countToTwoEvolution trips).Traces query (fun _ => 0) (countToTwo.typeOf 0) 3
      (fun k => (k : Int)) where
  direction := rfl
  known := ⟨le_rfl, le_rfl⟩
  fits_init := rfl
  evolves k _ := by
    simp [countToTwoEvolution, Operand.reading]
  fits k hk := by
    interval_cases k <;> rfl
  counted trips' counted := by
    cases counted
    exact enough

/-- Three rounds bring the counter from zero to two. -/
theorem Engine.narrow_holds_rounds_countToTwo :
    (countToTwoEngine 3).narrow (countToTwoEngine 3).start 1 0 (countToTwo.typeOf 0) .varying =
      .range (.const 0) (.const 2) ∧
    ((countToTwoEngine 3).narrow (countToTwoEngine 3).start 1 0 (countToTwo.typeOf 0)
      .varying).Holds (fun _ => 0) (countToTwo.typeOf 0) 2 := by
  have known := evolutionAt?_countToTwoEngine 3
  have result : (countToTwoEngine 3).narrow (countToTwoEngine 3).start 1 0 (countToTwo.typeOf 0)
      .varying = .range (.const 0) (.const 2) := by
    unfold narrow
    rw [known]
    rfl
  refine ⟨result, ?_⟩
  refine (@narrow_holds_rounds (countToTwoEngine 3) (countToTwoEngine 3).start 1 0 (fun _ => 0)
    (countToTwo.typeOf 0) .varying 3 (fun k => (k : Int)) rfl ?_ ?_ fun _ _ => trivial).1 2
      (by decide)
  · intro ev told
    cases known.symm.trans told
    exact traces_countToTwo _ (by decide)
  · intro ev told trips counted
    cases known.symm.trans told
    cases counted
    exact .inr rfl

/-- If 257 rounds are counted, the last value is taken modulo the size of the type and becomes zero
    again. Narrowing then cuts off one and two, which the counter reaches. -/
theorem Engine.narrow_misses_rounds_countToTwo :
    countToTwo.validate = .ok () ∧
    (countToTwoEngine 257).evolutionAt? 1 0 = some (countToTwoEvolution 257) ∧
    (countToTwoEvolution 257).noWrap = true ∧
    (countToTwoEvolution 257).Traces (countToTwoEngine 257).start.table.query (fun _ => 0)
      (countToTwo.typeOf 0) 3 (fun k => (k : Int)) ∧
    (∀ k : Nat, k < 3 → (ValueRange.range (.const 0) (.const 2)).Holds (fun _ => 0)
      (countToTwo.typeOf 0) k) ∧
    (countToTwo.typeOf 0).fits ((countToTwoEvolution 257).lastValue (fun _ => 0) 257) = false ∧
    (countToTwoEngine 257).narrow (countToTwoEngine 257).start 1 0 (countToTwo.typeOf 0)
      (.range (.const 0) (.const 2)) = .singleton 0 ∧
    ¬ ((countToTwoEngine 257).narrow (countToTwoEngine 257).start 1 0 (countToTwo.typeOf 0)
      (.range (.const 0) (.const 2))).Holds (fun _ => 0) (countToTwo.typeOf 0) 2 := by
  have known := evolutionAt?_countToTwoEngine 257
  have result : (countToTwoEngine 257).narrow (countToTwoEngine 257).start 1 0
      (countToTwo.typeOf 0) (.range (.const 0) (.const 2)) = .singleton 0 := by
    unfold narrow
    rw [known]
    rfl
  refine ⟨rfl, known, rfl, traces_countToTwo _ (by decide), fun k hk => ?_, rfl, result, ?_⟩
  · exact ⟨Int.natCast_nonneg k, Int.ofNat_le.mpr (Nat.le_of_lt_succ hk)⟩
  · rw [result]
    exact fun holds => absurd holds.2 (by decide)

end RangeFlow
