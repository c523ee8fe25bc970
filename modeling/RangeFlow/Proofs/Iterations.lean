import RangeFlow.Analysis.Evolution

/-! # Counting iterations

The iterations in which a comparison with a constant holds from the first one on are counted
exactly. A walk down is a walk up seen in a mirror: with the distance to the limit in place of the
limit, and the comparison the other way round, its steps are as long and go up. So the count is
found for walks up from zero, and what is left is one case per comparison.
-/

namespace RangeFlow

/-- The count is that of the iterations before the first one whose test fails, and there is none if
    no test fails. -/
inductive Counts (test : Nat → Bool) : Option Nat → Prop where
  | ends {m : Nat} (before : ∀ k < m, test k = true) (here : test m = false) : Counts test (some m)
  | goesOn (always : ∀ k, test k = true) : Counts test none

namespace Counts

variable {test : Nat → Bool} {count : Option Nat} {m : Nat}

theorem eq_some_iff (h : Counts test count) :
    count = some m ↔ (∀ k < m, test k = true) ∧ test m = false := by
  cases h with
  | @ends n before here =>
      constructor
      · intro same
        cases same
        exact ⟨before, here⟩
      · rintro ⟨before', here'⟩
        -- the later of two ends would lie among the iterations whose test holds
        rcases Nat.lt_trichotomy n m with less | same | more
        · simp [before' n less] at here
        · rw [same]
        · simp [before m more] at here'
  | goesOn always => simp [always m]

theorem eq_none_iff (h : Counts test count) : count = none ↔ ∀ k, test k = true := by
  cases h with
  | @ends n before here =>
      simp only [reduceCtorEq, false_iff]
      intro always
      simp [always n] at here
  | goesOn always => simp [always]

theorem of_lt (h : ∀ k, test k = true ↔ k < m) : Counts test (some m) := by
  apply Counts.ends
  · exact fun k before => (h k).mpr before
  · simpa using mt (h m).mp (Nat.lt_irrefl m)

theorem congr {test' : Nat → Bool} (h : Counts test count) (same : ∀ k, test' k = test k) :
    Counts test' count := by
  have equal : test' = test := funext same
  rwa [equal]

end Counts

namespace CmpOp

theorem eval_add_left (op : CmpOp) (base x limit : Int) :
    op.eval (base + x) limit = op.eval x (limit - base) := by
  cases op <;> simp only [eval, decide_eq_decide] <;> omega

theorem eval_sub_left (op : CmpOp) (base x limit : Int) :
    op.eval (base - x) limit = op.swap.eval x (base - limit) := by
  cases op <;> simp only [eval, swap, decide_eq_decide] <;> omega

end CmpOp

/-- For how many steps up from zero the numbers compare to a limit. -/
def stepsUp (stride : Nat) (op : CmpOp) (limit : Int) : Option Nat :=
  if !op.eval 0 limit then some 0
  else
    match op with
    | .eq => some 1
    | .lt => some ((limit.toNat + stride - 1) / stride)
    | .le => some (limit.toNat / stride + 1)
    | .ne => if 0 ≤ limit ∧ limit.toNat % stride = 0 then some (limit.toNat / stride) else none
    | .gt | .ge => none

theorem ceilDiv_le_iff {d n k : Nat} (positive : 0 < n) : (d + n - 1) / n ≤ k ↔ d ≤ n * k := by
  rw [Nat.div_le_iff_le_mul_add_pred positive]
  omega

theorem stepsUp_counts {stride : Nat} (positive : 0 < stride) (op : CmpOp) (limit : Int) :
    Counts (fun k => op.eval (stride * k : Nat) limit) (stepsUp stride op limit) := by
  unfold stepsUp
  split
  · next fails => exact .ends (fun k h => absurd h (Nat.not_lt_zero k)) (by simpa using fails)
  · next holds =>
      simp only [Bool.not_eq_true', Bool.not_eq_false] at holds
      cases op <;> simp only [CmpOp.eval, decide_eq_true_eq] at holds
      case lt =>
        apply Counts.of_lt
        intro k
        have covered := ceilDiv_le_iff (d := limit.toNat) (k := k) positive
        simp only [CmpOp.eval, decide_eq_true_eq]
        omega
      case le =>
        apply Counts.of_lt
        intro k
        have covered := Nat.le_div_iff_mul_le (x := k) (y := limit.toNat) positive
        rw [Nat.mul_comm] at covered
        simp only [CmpOp.eval, decide_eq_true_eq]
        omega
      case eq =>
        apply Counts.of_lt
        intro k
        have still := Nat.mul_eq_zero (m := k) (n := stride)
        simp only [CmpOp.eval, decide_eq_true_eq]
        omega
      case ne =>
        dsimp only
        split
        · next hit =>
            have exactly := Nat.mul_div_cancel' (Nat.dvd_of_mod_eq_zero hit.2)
            apply Counts.ends
            · intro k before
              have short := Nat.mul_lt_mul_of_pos_left before positive
              simp only [CmpOp.eval, decide_eq_true_eq]
              omega
            · simp only [CmpOp.eval, decide_eq_false_iff_not]
              omega
        · next missed =>
            apply Counts.goesOn
            intro k
            simp only [CmpOp.eval, decide_eq_true_eq]
            intro same
            apply missed
            rw [← same, Int.toNat_natCast]
            exact ⟨Int.natCast_nonneg _, Nat.mul_mod_right stride k⟩
      case gt | ge =>
        apply Counts.goesOn
        intro k
        simp only [CmpOp.eval, decide_eq_true_eq]
        omega

variable {base step limit : Int} {op : CmpOp}

/-- The way to the limit for a walk with the given step, if it is one towards the limit. -/
def wayTo (base step limit : Int) : Int := if 0 < step then limit - base else base - limit

theorem check_wayTo (base step limit : Int) :
    (if 0 < step then Wide.sub? limit base else Wide.sub? base limit) =
      Wide.check (wayTo base step limit) := by
  unfold wayTo
  split <;> rfl

/-- A walk in either direction is a walk up from zero. -/
theorem continuingIterations_eq (op : CmpOp) (measured : Wide.fits (wayTo base step limit) = true) :
    continuingIterations base step op limit =
      stepsUp step.natAbs (if 0 < step then op else op.swap) (wayTo base step limit) := by
  have start : op.eval base limit =
      (if 0 < step then op else op.swap).eval 0 (wayTo base step limit) := by
    unfold wayTo
    split
    · rw [← CmpOp.eval_add_left, Int.add_zero]
    · rw [← CmpOp.eval_sub_left, Int.sub_zero]
  have distance : Wide.check (wayTo base step limit) = some (wayTo base step limit) :=
    if_pos measured
  unfold continuingIterations stepsUp
  rw [start]
  simp only [check_wayTo, distance]
  by_cases forward : 0 < step
  · simp only [forward, if_true, decide_true]
    cases op <;> simp only [CmpOp.eval] <;> grind
  · simp only [forward, if_false, decide_false]
    cases op <;> simp only [CmpOp.eval, CmpOp.swap] <;> grind

theorem continuingIterations_counts (op : CmpOp) (moves : step ≠ 0)
    (measured : Wide.fits (wayTo base step limit) = true) :
    Counts (fun k => op.eval (base + step * k) limit)
      (continuingIterations base step op limit) := by
  have positive : 0 < step.natAbs := Int.natAbs_pos.mpr moves
  rw [continuingIterations_eq op measured, wayTo]
  split
  · next forward =>
      apply (stepsUp_counts positive op (limit - base)).congr
      intro k
      rw [CmpOp.eval_add_left, Int.natCast_mul, Int.natAbs_of_nonneg (Int.le_of_lt forward)]
  · next backward =>
      apply (stepsUp_counts positive op.swap (base - limit)).congr
      intro k
      have turned : base + step * k = base - (step.natAbs * k : Nat) := by
        rw [Int.natCast_mul, Int.ofNat_natAbs_of_nonpos (Int.not_lt.mp backward), Int.neg_mul,
          Int.sub_neg]
      rw [turned, CmpOp.eval_sub_left]

/-- After the counted iterations the comparison fails, also where the way to the limit leaves a wide
    word and only the first iteration is looked at. -/
theorem eval_continuingIterations {m : Nat} (moves : step ≠ 0)
    (h : continuingIterations base step op limit = some m) :
    op.eval (base + m * step) limit = false := by
  rw [Int.mul_comm]
  by_cases measured : Wide.fits (wayTo base step limit) = true
  · exact ((continuingIterations_counts op moves measured).eq_some_iff.mp h).2
  · unfold continuingIterations at h
    simp only [check_wayTo, Wide.check, measured] at h
    split at h
    · next fails =>
        cases h
        simpa using fails
    · next holds =>
        split at h
        · next equal =>
            cases h
            subst equal
            simp only [CmpOp.eval, Bool.not_eq_true', Bool.not_eq_false, decide_eq_true_eq] at holds
            simp only [CmpOp.eval, decide_eq_false_iff_not]
            omega
        · cases h

/-- The iterations are counted exactly: the count is that of the iterations in which the comparison
    holds before it fails for the first time, and there is none if it never fails. -/
theorem continuingIterations_exact (moves : step ≠ 0) (up : Wide.fits (limit - base) = true)
    (down : Wide.fits (base - limit) = true) :
    (∀ m, continuingIterations base step op limit = some m ↔
      (∀ k < m, op.eval (base + step * k) limit = true) ∧
        op.eval (base + step * m) limit = false) ∧
    (continuingIterations base step op limit = none ↔
      ∀ k : Nat, op.eval (base + step * k) limit = true) := by
  have measured : Wide.fits (wayTo base step limit) = true := by
    unfold wayTo
    split
    · exact up
    · exact down
  have counts := continuingIterations_counts op moves measured
  exact ⟨fun _ => counts.eq_some_iff, counts.eq_none_iff⟩

/-- A walk down passes one limit and hits another one. -/
theorem continuingIterations_exact_downFromTen :
    continuingIterations 10 (-3) .ne 1 = some 3 ∧ continuingIterations 10 (-3) .ne 2 = none := by
  have hit := (@continuingIterations_exact 10 (-3) 1 .ne (by decide) rfl rfl).1 3
  have missed := (@continuingIterations_exact 10 (-3) 2 .ne (by decide) rfl rfl).2
  refine ⟨hit.mpr ⟨by decide, rfl⟩, missed.mpr fun k => ?_⟩
  simp only [CmpOp.eval, decide_eq_true_eq]
  omega

end RangeFlow
