import RangeFlow.Proofs.AssertedRanges
import RangeFlow.Proofs.Fixpoint
import RangeFlow.Proofs.History
import RangeFlow.Proofs.Mentions

/-! # Names that ranges list as equal

Only what has ends lists names as equal. So where a propagation has given up, it has also forgotten
which names are equal.
-/

namespace RangeFlow

variable {ty : ScalarType}

namespace ValueRange

variable {a b vr : ValueRange}

/-- Only with ends are names listed as equal. -/
def Bare (vr : ValueRange) : Prop := vr.isBounded = false → vr.equiv = ∅

theorem bare_ofExtent (e : Extent) : (ofExtent e).Bare := fun _ => rfl

theorem bare_of_nameless (h : ∀ S, vr.NamesIn S) : vr.Bare :=
  fun _ => IdSet.eq_of_mem_iff fun n => ⟨fun hn => ((h fun _ => False).2 n hn).elim, nofun⟩

theorem bare_withEquiv (h : vr.Bare) (equiv : IdSet) : (vr.withEquiv equiv).Bare := by
  unfold withEquiv
  split
  · next bounded =>
      intro unbounded
      exact absurd bounded (Bool.eq_false_iff.mp unbounded)
  · exact h

theorem Bare.eq_varying (h : vr.Bare) (varying_ : vr.isVarying = true) : vr = varying := by
  obtain ⟨extent, equiv⟩ := vr
  obtain rfl : extent = .varying := by simpa [isVarying] using varying_
  obtain rfl : equiv = ∅ := h rfl
  rfl

theorem bare_meet (ha : a.Bare) (hb : b.Bare) : (meet ty a b).Bare := by
  have met := met_meet ty a b
  generalize meet ty a b = m at met ⊢
  cases met with
  | right => exact hb
  | left => exact ha
  | unknown => exact bare_ofExtent _
  | covered => exact bare_withEquiv (bare_ofExtent _) _
  | givenUp => exact fun _ => giveUp_equiv ty a b

theorem bare_foldl_meet {ranges : List ValueRange} (h : ∀ vr ∈ ranges, vr.Bare) (ha : a.Bare) :
    (ranges.foldl (meet ty) a).Bare :=
  List.foldlRecOn _ _ ha fun _ hx vr hvr => bare_meet hx (h vr hvr)

theorem bare_intersect (ha : a.Bare) (hb : b.Bare) : (a.intersect ty b).Bare := by
  unfold intersect
  split
  · exact bare_ofExtent _
  · exact bare_ofExtent _
  · exact ha
  · exact hb
  · dsimp only
    split
    · exact ha
    · exact bare_withEquiv (bare_ofExtent _) _

end ValueRange

namespace Query

variable {q : Query} (bare : ∀ n, (q.rangeOf n).Bare)

include bare

theorem operandRange_bare (o : Operand) : (q.operandRange o).Bare := by
  cases o with
  | const c => exact ValueRange.bare_ofExtent _
  | name n => exact bare n

theorem copyResult_bare (x : Operand) : (q.copyResult ty x).Bare := by
  cases x with
  | const c => exact ValueRange.bare_ofExtent _
  | name n =>
      unfold copyResult
      dsimp only
      split
      · exact ValueRange.bare_ofExtent _
      · next defined =>
          split
          · exact bare n
          · next known =>
              intro unbounded
              have bounded : (if (q.rangeOf n).isVarying then ValueRange.sameAs n
                  else q.rangeOf n).isBounded = true := by
                split
                · rfl
                · next informed =>
                    generalize q.rangeOf n = vr at known informed
                    obtain ⟨extent, equiv⟩ := vr
                    cases extent <;> simp_all [ValueRange.isBounded, ValueRange.isVarying,
                      ValueRange.isUndefined, Extent.isBounded]
              exact absurd bounded (Bool.eq_false_iff.mp unbounded)

theorem selectResult_bare (cond : Condition) (x y : Operand) :
    (q.selectResult cond x y ty).Bare := by
  unfold selectResult
  split
  · exact operandRange_bare bare x
  · exact operandRange_bare bare y
  · exact ValueRange.bare_meet (operandRange_bare bare x) (operandRange_bare bare y)

theorem assertResult_bare (subject : NameId) (predicate : Predicate) :
    (q.assertResult subject predicate ty).Bare := by
  rcases q.assertResult_cases subject predicate ty with unknown | ⟨-, refined⟩
  · rw [unknown]
    exact ValueRange.bare_ofExtent _
  · rw [refined]
    refine ValueRange.bare_intersect (bare subject) (ValueRange.bare_withEquiv (fun _ => ?_) _)
    exact implied_equiv q ty predicate

theorem rhsResult_bare (rhs : Rhs) (divisionTraps : Bool) :
    (q.rhsResult ty rhs divisionTraps).Bare := by
  cases rhs with
  | copy x => exact copyResult_bare bare x
  | unary op x =>
      rcases ValueRange.unary_cases op (q.operandType ty x) ty (q.operandRange x) with
        ⟨-, whole, -⟩ | nameless
      · simp only [rhsResult, whole]
        exact operandRange_bare bare x
      · exact ValueRange.bare_of_nameless nameless
  | binary op x y =>
      unfold rhsResult binaryResult
      dsimp only
      split
      · exact ValueRange.bare_ofExtent _
      · exact ValueRange.bare_of_nameless fun S => ValueRange.binary_namesIn op ty _ _
  | compare op x y =>
      exact ValueRange.bare_of_nameless fun S => compareResult_namesIn q op x y
  | select cond x y => exact selectResult_bare bare cond x y
  | assert subject predicate => exact assertResult_bare bare subject predicate
  | addressOf | load => exact ValueRange.bare_ofExtent _
  | call =>
      unfold rhsResult
      dsimp only
      split <;> exact ValueRange.bare_ofExtent _

end Query

namespace Engine

variable {en : Engine} {s : EngineState} {block : BlockId} {dest : NameId} {vr old new : ValueRange}

theorem narrow_bare (h : vr.Bare) : (en.narrow s block dest ty vr).Bare := by
  unfold narrow
  split
  · split
    · unfold Query.narrow
      split
      · exact h
      · dsimp only
        split
        · exact h
        · exact ValueRange.bare_withEquiv (ValueRange.bare_ofExtent _) _
    · exact h
  · exact h

theorem widen?_bare (h : new.Bare) (found : en.widen? s block dest ty old new = some vr) :
    vr.Bare := by
  rcases widen?_forms found with rfl | ⟨-, _, _, kept⟩ | ⟨-, _, _, _, rfl⟩
  · exact h
  · obtain ⟨b, -, rfl⟩ := ValueRange.widenAnti?_form kept
    exact ValueRange.bare_withEquiv (ValueRange.bare_ofExtent _) _
  · exact narrow_bare (ValueRange.bare_withEquiv (ValueRange.bare_ofExtent _) _)

section

variable (bare : ∀ n, (s.table.rangeOf n).Bare)

include bare

theorem mergedRange_bare (phi : Phi) : (en.mergedRange s block phi).Bare := by
  refine ValueRange.bare_foldl_meet (fun vr hvr => ?_) (ValueRange.bare_ofExtent _)
  obtain ⟨o, -, edge, -, -, rfl⟩ := mem_phiContributions.mp hvr
  cases o.value with
  | const c => exact ValueRange.bare_ofExtent _
  | name n =>
      unfold phiContribution
      dsimp only
      split
      · split
        · exact ValueRange.bare_ofExtent _
        · exact ValueRange.bare_withEquiv (bare n) _
      · split
        · exact fun unbounded => nomatch unbounded
        · exact bare n

theorem update_bare (h : vr.Bare) (m : NameId) :
    ((s.table.update dest vr).1.rangeOf m).Bare := by
  by_cases same : m = dest
  · subst same
    rcases RangeTable.rangeOf_update_self s.table m vr with stored | unknown
    · rw [stored]
      exact h
    · rw [unknown]
      exact ValueRange.bare_ofExtent _
  · rw [RangeTable.rangeOf_update_of_ne s.table vr same]
    exact bare m

theorem visitPhi_bare (phi : Phi) (m : NameId) :
    ((en.visitPhi s block phi).1.table.rangeOf m).Bare := by
  obtain ⟨before, ⟨phiEdges, rfl⟩, direct | ⟨old, widened, found, direct⟩ | givenUp⟩ :=
    visitPhi_cases en s block phi
  · rw [direct]
    exact update_bare bare (mergedRange_bare bare phi) m
  · rw [direct]
    exact update_bare bare (widen?_bare (mergedRange_bare bare phi) found) m
  · rw [givenUp]
    unfold giveUpPhi
    dsimp only
    split
    · exact update_bare bare (ValueRange.bare_ofExtent _) m
    · exact update_bare bare (narrow_bare (ValueRange.bare_ofExtent _)) m

theorem Move.keeps_bare {s' : EngineState} (move : en.Move s s') (m : NameId) :
    (s'.table.rangeOf m).Bare := by
  cases move with
  | keep _ _ ranges =>
      rcases ranges m with same | unknown
      · rw [same]
        exact bare m
      · rw [unknown]
        exact ValueRange.bare_ofExtent _
  | assign _ _ table =>
      rw [table]
      exact update_bare bare (Query.rhsResult_bare bare _ _) m
  | @merge _ _ _ visits phi _ table =>
      rw [table]
      exact visitPhi_bare (s := { s with visits }) bare phi m

end

theorem initial_bare (f : Function) (config : Config) (n : NameId) :
    ((RangeTable.ofFunction f config).initial n).Bare := by
  unfold RangeTable.initial
  dsimp only
  split
  · exact ValueRange.bare_ofExtent _
  · split
    · split <;> exact ValueRange.bare_ofExtent _
    · exact ValueRange.bare_ofExtent _
    · exact ValueRange.bare_ofExtent _
    · exact ValueRange.bare_ofExtent _

/-- At the end of a run only ranges with ends list names as equal. -/
theorem run_bare (run : en.run = (s, true)) : ∀ n, (s.table.rangeOf n).Bare := by
  refine run_keeps (P := fun s => ∀ n, (s.table.rangeOf n).Bare) (fun n => ?_)
    (fun s t bare move => move.keeps_bare bare) run
  change ((RangeTable.ofFunction en.f en.config).rangeOf n).Bare
  rw [RangeTable.rangeOf_ofFunction]
  exact initial_bare en.f en.config n

end Engine

end RangeFlow
