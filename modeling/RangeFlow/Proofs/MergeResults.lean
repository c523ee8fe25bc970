import RangeFlow.Proofs.Equivalents
import RangeFlow.Proofs.Narrowing
import RangeFlow.Proofs.RhsResults

/-! # Ranges of merges hold their values

What an operand contributes over an edge describes the value that comes over the edge, and the
merged range describes what any of its operands contributes. Widening gives names up and adds
values, and narrowing keeps the values on the way of an evolution and brings in the name of the
first one. So the range of a merge describes its value still.
-/

namespace RangeFlow

variable {S known : NameId → Prop} {ty : ScalarType} {env : Env} {v : Int}

namespace ValueRange

/-- A name is listed as equal by a join only if every range with values lists it. -/
theorem mem_foldl_meet_equiv {ranges : List ValueRange} {vr start : ValueRange}
    (hvr : vr ∈ ranges) (defined : vr.isUndefined = false) {n : NameId}
    (h : n ∈ (ranges.foldl (meet ty) start).equiv) : n ∈ vr.equiv := by
  obtain ⟨before, after, rfl⟩ := List.append_of_mem hvr
  rw [List.foldl_append, List.foldl_cons] at h
  have reached : (meet ty (before.foldl (meet ty) start) vr).isUndefined = false ∧
      ∀ n ∈ (meet ty (before.foldl (meet ty) start) vr).equiv, n ∈ vr.equiv :=
    ⟨meet_isUndefined (.inr defined), fun n hn => (mem_meet_equiv hn).2 defined⟩
  refine (List.foldlRecOn
    (motive := fun x : ValueRange => x.isUndefined = false ∧ ∀ n ∈ x.equiv, n ∈ vr.equiv)
    after _ reached fun x hx b _ => ?_).2 n h
  exact ⟨meet_isUndefined (.inl hx.1), fun n hn => hx.2 n ((mem_meet_equiv hn).1 hx.1)⟩

theorem mem_withEquiv_equiv {vr : ValueRange} {equiv : IdSet} {n : NameId}
    (h : n ∈ (vr.withEquiv equiv).equiv) : n ∈ equiv ∨ n ∈ vr.equiv := by
  unfold withEquiv at h
  split at h
  · exact .inl h
  · exact .inr h

end ValueRange

namespace Query

variable {q : Query} {vr new wider : ValueRange} {ranges : List ValueRange}

/-- Over values of the type a wider range describes what the narrower one does, if it mentions and
    lists no further names. -/
theorem Describes.widens (h : q.Describes S env ty new v) (fits : ty.fits v = true)
    (wide : new.Widens ty wider) (names : new.NamesIn S → wider.NamesIn S)
    (equal : ∀ m ∈ wider.equiv, m ∈ new.equiv) : q.Describes S env ty wider v :=
  ⟨wide.2 _ v fits h.holds, names h.names, fun m hm => h.equal m (equal m hm)⟩

theorem Describes.foldl_meet (hvr : vr ∈ ranges) (proper : ∀ vr ∈ ranges, vr.Proper ty)
    (h : q.Describes S env ty vr v) :
    q.Describes S env ty (ranges.foldl (ValueRange.meet ty) .undefined) v where
  holds := by
    have nothing : ValueRange.undefined.Proper ty := .undefined
    exact (ValueRange.foldl_meet_covers nothing proper).2 _ v (.inr ⟨vr, hvr, h.holds⟩)
  names := ValueRange.foldl_meet_namesIn_of_mem hvr h.holds.isUndefined_eq h.names _
  equal m hm := h.equal m (ValueRange.mem_foldl_meet_equiv hvr h.holds.isUndefined_eq hm)

theorem Describes.widenAnti? (proper : new.Proper ty) (fits : ty.fits v = true)
    (anti : new.isAnti = true) {minMoved maxMoved : Bool}
    (kept : new.widenAnti? ty minMoved maxMoved = some wider)
    (h : q.Describes S env ty new v) : q.Describes S env ty wider v := by
  obtain ⟨b, which, form⟩ := ValueRange.widenAnti?_form kept
  refine h.widens fits (ValueRange.widenAnti?_widens proper anti kept) (fun names => ?_)
    fun m hm => ?_
  · have named : b.NamesIn S := by
      rcases which with rfl | rfl
      · exact names.1.1
      · exact names.1.2
    rw [form]
    exact ValueRange.namesIn_withEquiv (ValueRange.namesIn_canonical ⟨named, named⟩) names.2
  · rw [form] at hm
    exact (ValueRange.mem_withEquiv_equiv hm).resolve_right nofun

theorem Describes.pushEnds (proper : new.Proper ty) (fits : ty.fits v = true)
    (range_ : new.isRange = true) (mayOverflow minMoved maxMoved : Bool)
    (h : q.Describes S env ty new v) :
    q.Describes S env ty (new.pushEnds ty mayOverflow minMoved maxMoved) v := by
  refine h.widens fits (ValueRange.pushEnds_widens proper range_ _ _ _) (fun names => ?_)
    fun m hm => (ValueRange.mem_withEquiv_equiv hm).resolve_right nofun
  refine ValueRange.namesIn_withEquiv (ValueRange.namesIn_range.mpr ⟨?_, ?_⟩) names.2
  · exact Bound.namesIn_ite (Bound.namesIn_ite Bound.namesIn_negInf (Bound.namesIn_const _)) names.1.1
  · exact Bound.namesIn_ite (Bound.namesIn_ite Bound.namesIn_posInf (Bound.namesIn_const _)) names.1.2

/-- The computed last values mention no name, and the first value is a number or its own name. -/
theorem evolvedEnds_namesIn (q : Query) {ev : Evolution} (init : ∀ n, ev.init = .name n → S n)
    (names : vr.NamesIn S) :
    (q.evolvedEnds ty ev vr).1.NamesIn S ∧ (q.evolvedEnds ty ev vr).2.NamesIn S := by
  have first : (q.boundOf ev.init).NamesIn S := by
    unfold boundOf
    split
    · exact Bound.namesIn_const _
    · cases start : ev.init with
      | const c => exact Bound.namesIn_const c
      | name n => exact Bound.namesIn_symbolic.mpr (init n start)
  have last : (q.lastValueEnds ty ev).1.NamesIn S ∧ (q.lastValueEnds ty ev).2.NamesIn S := by
    unfold lastValueEnds
    dsimp only
    split
    · split
      · split
        · exact (ValueRange.binary_namesIn .add ty _ _).1
        · exact ⟨Bound.namesIn_const _, Bound.namesIn_const _⟩
      · exact ⟨Bound.namesIn_const _, Bound.namesIn_const _⟩
    · exact ⟨Bound.namesIn_const _, Bound.namesIn_const _⟩
  unfold evolvedEnds
  dsimp only
  split
  · split
    · exact ⟨last.1, first⟩
    · exact ⟨first, last.2⟩
  · split
    · exact ⟨Bound.namesIn_ite last.1 names.1.1, Bound.namesIn_ite first names.1.2⟩
    · exact ⟨Bound.namesIn_ite first names.1.1, Bound.namesIn_ite last.2 names.1.2⟩

/-- Narrowing describes a value on the way of the evolution, in terms of the first value. -/
theorem Describes.narrow {q' : Query} {ev : Evolution} (integral : ty.isIntegral = true)
    (starts : ev.Starts q' env.total ty) (last : ev.LastFits env.total ty)
    (fits : ty.fits v = true) (way : ev.OnWay env.total v) (init : ∀ n, ev.init = .name n → S n)
    (h : q.Describes S env ty vr v) : q.Describes S env ty (q'.narrow ty ev vr) v := by
  refine ⟨narrow_holds integral starts last fits way h.holds, ?_, fun m hm => h.equal m ?_⟩
  · unfold Query.narrow
    split
    · exact h.names
    · dsimp only
      split
      · exact h.names
      · exact ValueRange.namesIn_withEquiv
          (ValueRange.namesIn_range.mpr (evolvedEnds_namesIn q' init h.names)) h.names.2
  · unfold Query.narrow at hm
    split at hm
    · exact hm
    · dsimp only at hm
      split at hm
      · exact hm
      · exact (ValueRange.mem_withEquiv_equiv hm).resolve_right nofun

end Query

namespace Engine

variable {en : Engine} {s : EngineState} {block : BlockId} {phi : Phi}

/-- What an operand contributes describes the value that comes over the edge. Names are only passed
    on over edges that do not lead back. -/
theorem phiContribution_describes (knows : s.table.query.Knows known env)
    (bare : ∀ n, (s.table.rangeOf n).Bare) (tracked : ty.isTracked = true) {edge : EdgeId}
    {o : Operand} (typed : s.table.query.Typed ty o) (hv : env.operand o = some v)
    (read : ∀ n, o = .name n → known n ∧
      (en.isBackEdge edge = false → S n ∧ (s.table.rangeOf n).NamesIn S)) :
    s.table.query.Describes S env ty (en.phiContribution s edge o) v := by
  cases o with
  | const c =>
      cases hv
      exact Query.describes_singleton _
  | name n =>
      cases typed
      obtain ⟨hn, onward⟩ := read n rfl
      obtain ⟨holds, -, equal⟩ := knows.describes n hn tracked
      rw [Env.total_eq hv] at holds equal
      unfold phiContribution
      dsimp only
      split
      · split
        · exact Query.describes_varying
        · next plain =>
            have none_ : ((s.table.rangeOf n).withEquiv ∅).equiv = ∅ := by
              unfold ValueRange.withEquiv
              split
              · rfl
              · next unbounded => exact bare n (Bool.eq_false_iff.mpr unbounded)
            refine .of_nameless ?_ fun S => ⟨?_, fun m hm => ?_⟩
            · rw [ValueRange.Holds, ValueRange.withEquiv_extent]
              exact holds
            · rw [ValueRange.withEquiv_extent]
              exact Extent.namesIn_of_plain (Bool.eq_false_iff.mpr plain)
            · rw [none_] at hm
              exact absurd hm IdSet.not_mem_empty
      · next forward =>
          obtain ⟨own, names⟩ := onward (Bool.eq_false_iff.mpr forward)
          split
          · have same : (Bound.ofName n).reading env.total (s.table.query.typeOf n) = v := by
              simp [Bound.ofName, Bound.reading, Env.total_eq hv]
            exact ⟨⟨same.le, same.ge⟩, ValueRange.namesIn_sameAs.mpr own,
              fun m hm => absurd hm IdSet.not_mem_empty⟩
          · exact ⟨holds, names, equal⟩

/-- What a visit computes for a merge describes the value that comes over an edge, if this is so for
    what the operand contributes and narrowing keeps it so. -/
theorem Computed.describes {q : Query} {before : EngineState} {dest : NameId}
    {merged vr : ValueRange} (computed : en.Computed before block dest ty merged vr)
    (proper : merged.Proper ty) (fits : ty.fits v = true)
    (narrows : ∀ vr, q.Describes S env ty vr v →
      q.Describes S env ty (en.narrow before block dest ty vr) v)
    (h : q.Describes S env ty merged v) : q.Describes S env ty vr v := by
  cases computed with
  | merged => exact h
  | widened found =>
      rcases widen?_forms found with rfl | ⟨anti, _, _, kept⟩ | ⟨range_, _, _, _, rfl⟩
      · exact h
      · exact h.widenAnti? proper fits anti kept
      · exact narrows _ (h.pushEnds proper fits range_ _ _ _)
  | narrowed => exact narrows _ Query.describes_varying

/-- The range of a merge describes the value that comes over an edge. -/
theorem PhiStable.describes (stable : en.PhiStable s block phi) (hq : s.table.query.Proper)
    (bare : ∀ n, (s.table.rangeOf n).Bare) (tracked : (s.table.typeOf phi.dest).isTracked = true)
    (typed : ∀ o ∈ phi.operands, s.table.query.Typed (s.table.typeOf phi.dest) o.value)
    (fits : (s.table.typeOf phi.dest).fits v = true) {o : PhiOperand} (ho : o ∈ phi.operands)
    {edge : EdgeId} (found : en.f.findEdge? o.predecessor block = some edge)
    (executable : s.edgeExecutable edge = true)
    (narrows : ∀ before : EngineState, before.table.names = s.table.names →
      (∀ o ∈ phi.operands, ∀ n, o.value = .name n →
        before.table.rangeOf n = s.table.rangeOf n) →
      ∀ vr, s.table.query.Describes S env (s.table.typeOf phi.dest) vr v →
        s.table.query.Describes S env (s.table.typeOf phi.dest)
          (en.narrow before block phi.dest (s.table.typeOf phi.dest) vr) v)
    (h : s.table.query.Describes S env (s.table.typeOf phi.dest)
      (en.phiContribution s edge o.value) v) :
    s.table.query.Describes S env (s.table.typeOf phi.dest) (s.table.rangeOf phi.dest) v := by
  rcases stable with unknown | ⟨before, names, ranges, computed⟩
  · rw [(bare phi.dest).eq_varying unknown]
    exact Query.describes_varying
  · have member : en.phiContribution s edge o.value ∈ en.phiContributions s block phi :=
      mem_phiContributions.mpr ⟨o, ho, edge, found, executable, rfl⟩
    have proper : ∀ vr ∈ en.phiContributions s block phi,
        vr.Proper (s.table.typeOf phi.dest) := by
      intro vr hvr
      obtain ⟨o, ho, edge, -, -, rfl⟩ := mem_phiContributions.mp hvr
      exact phiContribution_proper hq tracked (typed o ho) edge
    exact computed.describes (mergedRange_covers en block hq tracked typed).1 fits
      (narrows before names ranges) (h.foldl_meet member proper)

end Engine

end RangeFlow
