import Mathlib.Data.Set.Image
import RangeFlow.Analysis.Widening
import RangeFlow.Proofs.CanonicalForms
import RangeFlow.Proofs.Meets
import RangeFlow.Proofs.Valid

/-! # Targets of a switch

A switch is decided exactly if all values that its index may have lead to the same block. The
cases that meet an interval are swept in ascending order; the values that are left between them,
and those after the last, lead to the default block.
-/

namespace RangeFlow

/-- Lists with one element, up to repetitions. -/
theorem eraseDups_eq_singleton {α : Type} [BEq α] [LawfulBEq α] {l : List α} {a : α} :
    l.eraseDups = [a] ↔ ∀ x, x ∈ l ↔ x = a := by
  constructor
  · intro single x
    rw [← List.mem_eraseDups, single, List.mem_singleton]
  · intro same
    cases l with
    | nil => exact absurd ((same a).mpr rfl) List.not_mem_nil
    | cons b rest =>
        have first : b = a := (same b).mp (List.mem_cons_self ..)
        have others : rest.filter (fun x => !x == b) = [] := by
          rw [List.filter_eq_nil_iff]
          intro x member
          have equal : x = a := (same x).mp (List.mem_cons_of_mem _ member)
          simp [equal, first]
        rw [List.eraseDups_cons, others, List.eraseDups_nil, first]

/-- The block that the cases select for a value of the index. -/
def selectedTarget (cases : List SwitchCase) (default : BlockId) (v : Int) : BlockId :=
  ((cases.find? (·.matches v)).map SwitchCase.target).getD default

/-- Cases that are not empty and stand in ascending order, without overlap. -/
structure OrderedCases (cases : List SwitchCase) : Prop where
  nonempty : ∀ case ∈ cases, case.low ≤ case.high
  ascending : cases.Pairwise fun case later => case.high < later.low

section Cases

variable {case : SwitchCase} {cases rest : List SwitchCase} {default t : BlockId} {lo hi v : Int}

theorem SwitchCase.matches_iff : case.matches v = true ↔ case.low ≤ v ∧ v ≤ case.high := by
  simp [SwitchCase.matches]

theorem selectedTarget_of_matches (h : case.matches v = true) :
    selectedTarget (case :: rest) default v = case.target := by
  simp [selectedTarget, h]

theorem selectedTarget_of_not_matches (h : case.matches v = false) :
    selectedTarget (case :: rest) default v = selectedTarget rest default v := by
  simp [selectedTarget, h]

theorem selectedTarget_of_below (h : ∀ case ∈ cases, v < case.low) :
    selectedTarget cases default v = default := by
  have missed : cases.find? (·.matches v) = none := by
    rw [List.find?_eq_none]
    intro case member inside
    have := h case member
    have := SwitchCase.matches_iff.mp inside
    omega
  rw [selectedTarget, missed]
  rfl

/-- Dropping cases that do not match the value changes nothing. -/
theorem selectedTarget_filter {p : SwitchCase → Bool}
    (keeps : ∀ case ∈ cases, case.matches v = true → p case = true) :
    selectedTarget (cases.filter p) default v = selectedTarget cases default v := by
  induction cases with
  | nil => rfl
  | cons case rest ih =>
      have tail := ih fun other member => keeps other (List.mem_cons_of_mem _ member)
      cases selected : case.matches v with
      | true =>
          have kept := keeps case (List.mem_cons_self ..) selected
          rw [List.filter_cons_of_pos kept, selectedTarget_of_matches selected,
            selectedTarget_of_matches selected]
      | false =>
          rw [selectedTarget_of_not_matches selected, ← tail]
          cases kept : p case with
          | true => rw [List.filter_cons_of_pos kept, selectedTarget_of_not_matches selected]
          | false => rw [List.filter_cons_of_neg (by simp [kept])]

namespace OrderedCases

theorem tail (h : OrderedCases (case :: rest)) : OrderedCases rest where
  nonempty := fun other member => h.nonempty other (List.mem_cons_of_mem _ member)
  ascending := (List.pairwise_cons.mp h.ascending).2

theorem filter (h : OrderedCases cases) (p : SwitchCase → Bool) :
    OrderedCases (cases.filter p) where
  nonempty := fun case member => h.nonempty case (List.mem_filter.mp member).1
  ascending := h.ascending.filter p

end OrderedCases

theorem orderedCases_of_checkCases {ty : Option ScalarType} {previous : Option Int}
    (h : Function.checkCases ty previous cases = .ok ()) :
    OrderedCases cases ∧ ∀ p ∈ previous, ∀ case ∈ cases, p < case.low := by
  induction cases generalizing previous with
  | nil => exact ⟨⟨nofun, .nil⟩, nofun⟩
  | cons case rest ih =>
      rw [Function.checkCases] at h
      obtain ⟨nonempty, h⟩ := guard_bind_eq_ok.mp h
      obtain ⟨apart, h⟩ := guard_bind_eq_ok.mp h
      have tail : Function.checkCases ty (some case.high) rest = .ok () := by
        dsimp only at h
        split at h
        · split at h
          · exact h
          · cases h
        · exact h
      obtain ⟨ordered, later⟩ := ih tail
      have first : ∀ other ∈ rest, case.high < other.low := later case.high rfl
      refine ⟨⟨?_, List.pairwise_cons.mpr ⟨first, ordered.ascending⟩⟩, ?_⟩
      · exact List.forall_mem_cons.mpr ⟨Int.not_lt.mp nonempty, ordered.nonempty⟩
      · intro p known
        have above : p < case.low := by
          cases known
          simpa using apart
        refine List.forall_mem_cons.mpr ⟨above, fun other member => ?_⟩
        have := first other member
        omega

/-- The cases of a function that passes validation are in order. -/
theorem Function.Valid.orderedCases {f : Function} (hf : f.Valid) {id : BlockId} {b : Block}
    {index : Operand} (hb : f.block? id = some b)
    (ends : b.terminator = .switch index cases default) : OrderedCases cases := by
  have checked := hf.terminators id b hb
  rw [ends, Function.checkTerminator, bind_eq_ok] at checked
  obtain ⟨_, -, checked⟩ := checked
  exact (orderedCases_of_checkCases checked).1

/-- The sweep over an interval finds the targets of its values, if every case has a value in the
    interval. The values before the first case have no case, and neither have those between it and
    the part that is swept next. -/
theorem mem_intervalTargets_iff (ordered : OrderedCases cases)
    (reach : ∀ case ∈ cases, ∃ v, (lo ≤ v ∧ v ≤ hi) ∧ case.matches v = true) :
    t ∈ Query.intervalTargets default hi lo cases ↔
      ∃ v, (lo ≤ v ∧ v ≤ hi) ∧ selectedTarget cases default v = t := by
  induction cases generalizing lo with
  | nil =>
      have nowhere : ∀ v, selectedTarget [] default v = default := fun _ => rfl
      simp only [Query.intervalTargets, nowhere]
      split
      · next some =>
          rw [List.mem_singleton]
          exact ⟨fun same => ⟨lo, ⟨Int.le_refl _, some⟩, same.symm⟩,
            fun ⟨_, _, same⟩ => same.symm⟩
      · next none =>
          refine iff_of_false List.not_mem_nil ?_
          rintro ⟨v, within, -⟩
          omega
  | cons case rest ih =>
      obtain ⟨w, within, inside⟩ := reach case (List.mem_cons_self ..)
      have later : ∀ other ∈ rest, case.high < other.low :=
        (List.pairwise_cons.mp ordered.ascending).1
      have bounds := SwitchCase.matches_iff.mp inside
      have swept : t ∈ Query.intervalTargets default hi (Max.max lo (case.high + 1)) rest ↔
          ∃ v, (Max.max lo (case.high + 1) ≤ v ∧ v ≤ hi) ∧ selectedTarget rest default v = t := by
        refine ih ordered.tail fun other member => ?_
        obtain ⟨u, within', inside'⟩ := reach other (List.mem_cons_of_mem _ member)
        have above := later other member
        have bounds' := SwitchCase.matches_iff.mp inside'
        exact ⟨u, by omega, inside'⟩
      rw [Query.intervalTargets, List.mem_append, List.mem_cons, swept]
      constructor
      · rintro (gap | rfl | ⟨v, above, selected⟩)
        · split at gap
          · next before =>
              obtain rfl := List.mem_singleton.mp gap
              refine ⟨lo, by omega, selectedTarget_of_below ?_⟩
              rw [List.forall_mem_cons]
              refine ⟨before, fun other member => ?_⟩
              have := later other member
              omega
          · cases gap
        · exact ⟨w, within, selectedTarget_of_matches inside⟩
        · have missed : case.matches v = false := by
            rw [Bool.eq_false_iff, ne_eq, SwitchCase.matches_iff]
            omega
          exact ⟨v, by omega, (selectedTarget_of_not_matches missed).trans selected⟩
      · rintro ⟨v, within', rfl⟩
        by_cases selected : case.matches v = true
        · exact .inr (.inl (selectedTarget_of_matches selected))
        · have missed : ¬ (case.low ≤ v ∧ v ≤ case.high) := mt SwitchCase.matches_iff.mpr selected
          by_cases before : v < case.low
          · refine .inl ?_
            rw [if_pos (by omega), List.mem_singleton]
            refine selectedTarget_of_below ?_
            rw [List.forall_mem_cons]
            refine ⟨before, fun other member => ?_⟩
            have := later other member
            omega
          · refine .inr (.inr ⟨v, by omega, ?_⟩)
            exact (selectedTarget_of_not_matches (Bool.eq_false_iff.mpr selected)).symm

/-- The targets found for an interval do not depend on the cases that it does not meet. -/
theorem mem_intervalTargets_filter_iff (ordered : OrderedCases cases) (order : lo ≤ hi) :
    t ∈ Query.intervalTargets default hi lo
        (cases.filter fun case => decide (lo ≤ case.high) && decide (case.low ≤ hi)) ↔
      ∃ v, (lo ≤ v ∧ v ≤ hi) ∧ selectedTarget cases default v = t := by
  rw [mem_intervalTargets_iff (ordered.filter _)]
  · refine exists_congr fun v => and_congr_right fun within => ?_
    rw [selectedTarget_filter]
    intro case _ inside
    have bounds := SwitchCase.matches_iff.mp inside
    simp only [Bool.and_eq_true, decide_eq_true_eq]
    omega
  · intro case member
    obtain ⟨member, meets⟩ := List.mem_filter.mp member
    simp only [Bool.and_eq_true, decide_eq_true_eq] at meets
    have nonempty := ordered.nonempty case member
    exact ⟨Max.max lo case.low, by omega, SwitchCase.matches_iff.mpr (by omega)⟩

end Cases

/-- A range whose ends are numbers of the type, in order if it is an interval. -/
structure ValueRange.Numeric (ty : ScalarType) (vr : ValueRange) : Prop where
  bounded : vr.isBounded = true
  plain : vr.isSymbolic = false
  sided : vr.extent.Sided ty
  order : vr.isRange = true → ∀ lo hi, vr.constBounds? ty = some (lo, hi) → lo ≤ hi

/-- The values of a range between, or apart from, two numbers of the type. -/
theorem ValueRange.Numeric.exists_ends {ty : ScalarType} {vr : ValueRange} (h : vr.Numeric ty)
    (env : NameId → Int) : ∃ lo hi, vr.constBounds? ty = some (lo, hi) ∧
      (ty.minValue ≤ lo ∧ lo ≤ ty.maxValue) ∧ (ty.minValue ≤ hi ∧ hi ≤ ty.maxValue) ∧
      ∀ v, vr.extent.Holds env ty v ↔
        if vr.isRange then lo ≤ v ∧ v ≤ hi else ¬ (lo ≤ v ∧ v ≤ hi) := by
  obtain ⟨bounded, plain, sided, -⟩ := h
  have ends : vr.constBounds? ty = some (vr.min.reading env ty, vr.max.reading env ty) :=
    Extent.constBounds?_eq_reading env bounded plain
  obtain ⟨low, high⟩ := concrete?_of_constBounds? ends
  obtain ⟨extent, equiv⟩ := vr
  cases extent with
  | undefined | varying => cases bounded
  | inside lo hi | outside lo hi =>
      have fitsLo := fits_of_concrete? sided.1.1 low
      have fitsHi := fits_of_concrete? sided.2.1 high
      exact ⟨_, _, ends, ScalarType.fits_iff.mp fitsLo, ScalarType.fits_iff.mp fitsHi,
        fun v => Iff.rfl⟩

theorem ValueRange.constBounds?_eq_none {ty : ScalarType} {vr : ValueRange}
    (h : vr.isBounded = false ∨ vr.isSymbolic = true) : vr.constBounds? ty = none := by
  obtain ⟨extent, equiv⟩ := vr
  cases extent with
  | undefined | varying => rfl
  | inside lo hi | outside lo hi =>
      have named : (lo.isSymbolic || hi.isSymbolic) = true := h.resolve_left nofun
      cases lo <;> cases hi <;> first | rfl | cases named

namespace Query

variable {query : Query} {env : NameId → Int} {index : Operand} {cases : List SwitchCase}
  {default t : BlockId} {v : Int}

/-- The values that an index may have. -/
def indexValues (query : Query) (env : NameId → Int) : Operand → Set Int
  | .const c => {c}
  | .name n => (query.rangeOf n).extent.values env (query.typeOf n)

/-- The index is a literal, or a name between, or apart from, two numbers. -/
def KnowsIndex (query : Query) : Operand → Prop
  | .const _ => True
  | .name n => (query.rangeOf n).Numeric (query.typeOf n)

/-- The index is a name of which nothing, or everything, is held possible, or that is only known
    relative to another name. -/
def MissesIndex (query : Query) : Operand → Prop
  | .const _ => False
  | .name n => (query.rangeOf n).isBounded = false ∨ (query.rangeOf n).isSymbolic = true

/-- The values of the index are those of some intervals that are not empty. -/
theorem exists_indexIntervals (env : NameId → Int) (known : query.KnowsIndex index) :
    ∃ intervals, query.indexIntervals? index = some intervals ∧ (∀ p ∈ intervals, p.1 ≤ p.2) ∧
      ∀ v, v ∈ query.indexValues env index ↔ ∃ p ∈ intervals, p.1 ≤ v ∧ v ≤ p.2 := by
  cases index with
  | const c =>
      refine ⟨[(c, c)], rfl, by simp, fun v => ?_⟩
      simp only [indexValues, Set.mem_singleton_iff, List.mem_singleton, exists_eq_left]
      omega
  | name n =>
      obtain ⟨lo, hi, ends, low, high, holds⟩ := known.exists_ends env
      simp only [indexIntervals?, ends, indexValues, Extent.values, Set.mem_ofPred_eq,
        ScalarType.fits_iff, holds]
      cases interval : (query.rangeOf n).isRange with
      | true =>
          have order := known.order interval lo hi ends
          refine ⟨_, rfl, by simpa using order, fun v => ?_⟩
          simp only [if_true, List.mem_singleton, exists_eq_left]
          omega
      | false =>
          refine ⟨_, rfl, by simp, fun v => ?_⟩
          simp only [Bool.false_eq_true, if_false, List.mem_filter, List.mem_cons,
            List.not_mem_nil, or_false, decide_eq_true_eq, and_assoc, or_and_right, exists_or,
            exists_eq_left]
          omega

theorem indexIntervals?_eq_none (missed : query.MissesIndex index) :
    query.indexIntervals? index = none := by
  cases index with
  | const c => exact missed.elim
  | name n =>
      have unknown : (query.rangeOf n).constBounds? (query.typeOf n) = none :=
        ValueRange.constBounds?_eq_none missed
      simp only [indexIntervals?, unknown]

/-- A switch is decided for a target if the cases that meet the intervals of its index lead there,
    and nowhere else. -/
theorem switchTarget?_eq_some_iff {intervals : List (Int × Int)}
    (found : query.indexIntervals? index = some intervals) :
    query.switchTarget? index cases default = some t ↔
      ∀ x, (∃ p ∈ intervals, x ∈ intervalTargets default p.2 p.1
        (cases.filter fun case => decide (p.1 ≤ case.high) && decide (case.low ≤ p.2))) ↔
          x = t := by
  simp only [← List.mem_flatMap]
  rw [switchTarget?, found, ← eraseDups_eq_singleton]
  dsimp only
  split
  · next single => rw [single, Option.some.injEq, List.singleton_inj]
  · next several => exact iff_of_false nofun (several t)

/-- A switch is decided for a target exactly if the values of its index select that target and no
    other. It is never decided if those values are not known. -/
theorem switch_decided_iff (ordered : OrderedCases cases) :
    (query.KnowsIndex index → (query.switchTarget? index cases default = some t ↔
      selectedTarget cases default '' query.indexValues env index = {t})) ∧
    (query.MissesIndex index → query.switchTarget? index cases default = none) := by
  constructor
  · intro known
    obtain ⟨intervals, found, order, values⟩ := exists_indexIntervals env known
    rw [switchTarget?_eq_some_iff found, Set.ext_iff]
    apply forall_congr'
    intro x
    rw [Set.mem_singleton_iff, Set.mem_image]
    apply iff_congr _ Iff.rfl
    constructor
    · rintro ⟨p, member, reached⟩
      obtain ⟨v, within, selected⟩ :=
        (mem_intervalTargets_filter_iff ordered (order p member)).mp reached
      exact ⟨v, (values v).mpr ⟨p, member, within⟩, selected⟩
    · rintro ⟨v, inside, selected⟩
      obtain ⟨p, member, within⟩ := (values v).mp inside
      have reached := (mem_intervalTargets_filter_iff ordered (order p member)).mpr
        ⟨v, within, selected⟩
      exact ⟨p, member, reached⟩
  · intro missed
    rw [switchTarget?, indexIntervals?_eq_none missed]

/-- An index that is apart from some numbers, with one target for all numbers around them. -/
theorem switch_decided_iff_around :
    OrderedCases [⟨-128, -1, 1⟩, ⟨6, 127, 1⟩] ∧
    selectedTarget [⟨-128, -1, 1⟩, ⟨6, 127, 1⟩] 2 ''
      indexValues ⟨fun _ => .anti (.const 0) (.const 5), fun _ => .int ⟨8, eight_bits⟩ .signed⟩
        (fun _ => 0) (.name 0) = {1} := by
  have ordered : OrderedCases [⟨-128, -1, 1⟩, ⟨6, 127, 1⟩] := ⟨by decide, by decide⟩
  have numeric : (ValueRange.anti (.const 0) (.const 5)).Numeric (.int ⟨8, eight_bits⟩ .signed) :=
    ⟨rfl, rfl, ⟨Bound.isLower_const.mpr rfl, Bound.isUpper_const.mpr rfl⟩, nofun⟩
  have known : KnowsIndex ⟨fun _ => .anti (.const 0) (.const 5),
      fun _ => .int ⟨8, eight_bits⟩ .signed⟩ (.name 0) := numeric
  exact ⟨ordered, ((switch_decided_iff ordered).1 known).mp (by decide)⟩

end Query

end RangeFlow
