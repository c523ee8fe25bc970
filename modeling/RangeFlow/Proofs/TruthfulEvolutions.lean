import RangeFlow.Proofs.Soundness
import RangeFlow.Proofs.TripCount

/-! # Evolutions are true of executions

The value that a merged name has when a loop is entered comes from names that are set above the
loop. These do not change while the loop goes round, so in every round the merge takes a value on
the way from the first one to the last one, in terms of the values that the names have then.
-/

namespace RangeFlow

namespace Function

variable {f : Function} {config : Config} {l : NaturalLoop}

/-- Every path has passed the block where the function starts, or has not left it. -/
theorem Path.entry_mem {b : BlockId} {passed : List BlockId} (way : f.Path b passed) :
    f.entry = b ∨ f.entry ∈ passed := by
  induction way with
  | entry => exact .inl rfl
  | step way hb ht ih => exact .inr (List.mem_cons.mpr ih)

section Above

variable (hf : f.Valid) (hl : l ∈ f.loops.loops)

include hf hl

/-- A block outside of a loop with an edge into it can be reached without passing the header. -/
theorem Valid.not_headed_of_outside {p : BlockId} (reached : f.Reachable p)
    (feeds : f.Feeds p l.header) (outside : l.contains p = false) :
    ¬ f.OnEveryPath l.header p := by
  intro headed
  have latch := (hf.mem_latches hl).mpr ⟨reached, feeds, headed⟩
  have known := (hf.feeds_lt feeds).1
  have inside : l.contains p = true := by
    rw [mem_loop hl]
    refine ⟨known, ?_⟩
    by_cases start : p = l.header
    · exact .inl start
    · exact .inr ⟨p, latch, .refl ⟨known, start⟩⟩
  rw [outside] at inside
  cases inside

/-- What is set before every edge into a loop is set on all paths to the header. -/
theorem Valid.passed_above {p : BlockId} {n : NameId} {q : BlockId × Nat}
    (place : f.place? n = some q) (reached : f.Reachable p) (feeds : f.Feeds p l.header)
    (outside : l.contains p = false)
    (set : ∀ p, f.Feeds p l.header → l.contains p = false → ∃ i, f.Dominated n p i)
    {passed : List BlockId} (way : f.Path l.header passed) : q.1 ∈ passed := by
  induction length : passed.length using Nat.strongRecOn generalizing passed with
  | _ count ih =>
      rcases way.cases_feeds with ⟨start, -⟩ | ⟨source, before, rfl, shorter, fed⟩
      · -- the header is not where the function starts
        refine absurd (fun passed path => ?_) (hf.not_headed_of_outside hl reached feeds outside)
        rw [start]
        exact path.entry_mem
      · rw [List.length_cons] at length
        cases within : l.contains source with
        | true =>
            rcases hf.header_onEveryPath hl within before shorter with same | member
            · exact List.mem_cons_of_mem _ (ih before.length (by omega) (same ▸ shorter) rfl)
            · obtain ⟨first, path, less, sub⟩ := shorter.to_passed member
              exact List.mem_cons_of_mem _ (sub _ (ih first.length (by omega) path rfl))
        | false =>
            obtain ⟨i, site, found, dominates⟩ := set source fed within
            have before_ := dominates q.1 q.2 (by simpa [place?, found] using place) before shorter
            rcases before_ with ⟨same, -⟩ | member
            · exact List.mem_cons.mpr (.inl same)
            · exact List.mem_cons_of_mem _ member

/-- What is set on all paths to the header, before it, is not set in the loop. -/
theorem Valid.outside_of_passed {d : BlockId} (reached : f.Reachable l.header)
    (passes : ∀ passed, f.Path l.header passed → d ∈ passed) : l.contains d = false := by
  rw [Bool.eq_false_iff]
  intro inside
  obtain ⟨passed, way⟩ := reached
  obtain ⟨before, path, -, -⟩ := way.to_passed (passes passed way)
  have toHeader : ∀ passed, f.Path l.header passed → (d = l.header ∧ False) ∨ d ∈ passed :=
    fun passed way => .inr (passes passed way)
  have toBlock : ∀ passed, f.Path d passed → (l.header = d ∧ False) ∨ l.header ∈ passed := by
    intro passed way
    rcases hf.header_onEveryPath hl inside passed way with same | member
    · rw [same]
      exact .inr (passes passed (same ▸ way))
    · exact .inr member
  exact Path.not_both_before toHeader toBlock nofun path

end Above

section Kept

variable {n : NameId} (hf : f.Valid)
  (outside : ∀ q, f.place? n = some q → l.contains q.1 = false)

include hf outside

/-- The merges of a block in a loop do not change a name that is set elsewhere. -/
theorem kept_by_merges {p target : BlockId} {t : Block} {env : Env} (ht : f.block? target = some t)
    (inside : l.contains target = true) : t.mergeFrom p env n = env n := by
  refine Block.mergeFrom_of_not_mem fun hn => ?_
  obtain ⟨phi, hphi, rfl⟩ := List.mem_map.mp hn
  obtain ⟨j, hj⟩ := List.mem_iff_getElem?.mp hphi
  have place := hf.place?_phi (phiAt?_eq_some.mpr ⟨t, ht, hj⟩)
  rw [outside _ place] at inside
  cases inside

/-- An execution that stays in a loop does not change a name that is set elsewhere. -/
theorem Stays.kept (hl : l ∈ f.loops.loops) {first s : ExecState} {k : Nat}
    (started : first.block = l.header) (stays : f.Stays config l first k s) :
    s.env n = first.env n := by
  induction stays with
  | first => rfl
  | @stmt k block index env env' stmt stays hstmt run ih =>
      have inside : l.contains block = true := stays.inside hl started
      rw [← ih]
      cases run with
      | @assign dest rhs v evaluates =>
          refine Env.set_of_ne env v ?_
          rintro rfl
          rw [outside _ (hf.place?_stmt hstmt rfl)] at inside
          cases inside
      | store | nop => rfl
  | onward stays leave inside other ht ih => exact (kept_by_merges hf outside ht inside).trans ih
  | back stays leave ht ih =>
      exact (kept_by_merges hf outside ht (contains_header hl)).trans ih

/-- Coming into a loop does not change a name that is set elsewhere. -/
theorem Enters.kept {origin first : ExecState} (enters : f.Enters config l (some origin) first) :
    first.env n = origin.env n := by
  cases enters with
  | edge reached away leave inside ht => exact kept_by_merges hf outside ht inside

end Kept

/-- An execution that is in a loop has come into it and has stayed there since. -/
theorem Reaches.exists_stays {x : ExecState} (h : f.Reaches config x)
    (inside : l.contains x.block = true) : ∃ before first k,
      f.Enters config l before first ∧ f.Stays config l first k x := by
  induction h with
  | start init => exact ⟨_, _, 0, .start init inside, .first⟩
  | @step s s' reached step ih =>
      cases step with
      | stmt hstmt run =>
          obtain ⟨before, first, k, enters, stays⟩ := ih inside
          exact ⟨before, first, k, enters, stays.stmt hstmt run⟩
      | @edge _ target t leave ht =>
          cases within : l.contains s.block with
          | false => exact ⟨_, _, 0, .edge reached within leave inside ht, .first⟩
          | true =>
              obtain ⟨before, first, k, enters, stays⟩ := ih within
              by_cases back : target = l.header
              · subst back
                exact ⟨before, first, k + 1, enters, stays.back leave ht⟩
              · exact ⟨before, first, k, enters, stays.onward leave inside back ht⟩

section Entry

variable {rank : BlockId → Nat} {phi : Phi} {iv : InductionVar} {step : Int} (hf : f.Valid)
  (hl : l ∈ f.loops.loops) (uses : f.UsesDominated) (evolves : f.Evolves l phi iv step)
  {p : BlockId} (reached : f.Reachable p) (feeds : f.Feeds p l.header)
  (outside : l.contains p = false) {n : NameId} (named : iv.init = .name n)

include hf hl uses evolves reached feeds outside named

/-- The place of the first value lies on all paths to the header, before it. -/
theorem Evolves.init_above {q : BlockId × Nat} (place : f.place? n = some q)
    {passed : List BlockId} (way : f.Path l.header passed) : q.1 ∈ passed := by
  refine hf.passed_above hl place reached feeds outside (fun source fed away => ?_) way
  obtain ⟨index, hphi⟩ := evolves.header
  obtain ⟨o, ho, from_, -, value⟩ := evolves.operand_from hf fed
  rw [away, if_neg (by decide), named] at value
  obtain ⟨b, hb, -⟩ := id fed
  exact ⟨_, from_ ▸ uses.phi l.header index phi o n b hphi ho value (from_ ▸ hb)⟩

/-- The first value is set outside of the loop. -/
theorem Evolves.init_outside {q : BlockId × Nat} (place : f.place? n = some q) :
    l.contains q.1 = false := by
  obtain ⟨passed, way⟩ := reached
  exact hf.outside_of_passed hl ⟨_, way.step_feeds feeds⟩ fun _ path =>
    evolves.init_above hf hl uses ⟨passed, way⟩ feeds outside named place path

/-- The first value is set where the loop is, and before the merge. -/
theorem Evolves.init_dominated (ranked : f.RankedBy rank) {block : BlockId} {index : Nat}
    (inside : l.contains block = true) :
    f.Dominated n block index ∧ f.Precedes rank n phi.dest := by
  obtain ⟨i, hphi⟩ := evolves.header
  obtain ⟨o, ho, from_, -, value⟩ := evolves.operand_from hf feeds
  rw [outside, if_neg (by decide), named] at value
  obtain ⟨b, hb, -⟩ := id feeds
  obtain ⟨site, found, -⟩ := uses.phi l.header i phi o n b hphi ho value (from_ ▸ hb)
  have above : ∀ q, f.place? n = some q → ∀ passed, f.Path l.header passed → q.1 ∈ passed :=
    fun q place _ way => evolves.init_above hf hl uses reached feeds outside named place way
  constructor
  · refine ⟨site, found, fun d k place passed way => .inr ?_⟩
    have place_ : f.place? n = some (d, k) := by simpa [place?, found] using place
    rcases hf.header_onEveryPath hl inside passed way with rfl | member
    · exact above _ place_ passed way
    · obtain ⟨before, path, -, sub⟩ := way.to_passed member
      exact sub d (above _ place_ before path)
  · intro q place
    refine ⟨_, hf.place?_phi hphi, .inl ?_⟩
    obtain ⟨passed, way⟩ := reached
    refine ranked.rank_lt ⟨_, way.step_feeds feeds⟩ (fun _ path => .inr (above q place _ path)) ?_
    rintro same
    have away := evolves.init_outside hf hl uses ⟨passed, way⟩ feeds outside named place
    rw [same, contains_header hl] at away
    cases away

end Entry

section Arrival

variable {rank : BlockId → Nat} {phi : Phi} {iv : InductionVar} {step : Int} (hf : f.Valid)
  (hl : l ∈ f.loops.loops) (uses : f.UsesDominated) (evolves : f.Evolves l phi iv step)
  (tracked : (f.typeOf phi.dest).isTracked = true) (ranked : f.RankedBy rank)

include hf hl uses evolves ranked tracked

/-- When control comes to the header and the merge takes a value, the loop has been entered, and the
    first value is still what it was then. -/
theorem Evolves.arrival {x : ExecState} {t : Block} {v : Int} (reaches : f.Reaches config x)
    (leave : f.Leaves x l.header) (ht : f.block? l.header = some t)
    (merges : t.mergeFrom x.block x.env phi.dest = some v) :
    ∃ before first k i, f.Enters config l before first ∧
      f.Stays config l first k ⟨l.header, 0, t.mergeFrom x.block x.env⟩ ∧
      first.env phi.dest = some i ∧ x.env.operand iv.init = some i ∧
      ∀ n, iv.init = .name n → f.Dominated n x.block x.index ∧ f.Precedes rank n phi.dest := by
  have way := (reaches.consistent hf uses).way
  cases within : l.contains x.block with
  | false =>
      have taken : t.mergeFrom x.block x.env phi.dest =
          x.env.operand (if l.contains x.block then iv.update else iv.init) :=
        evolves.merged hf leave.feeds ht
      rw [within, if_neg (by decide), merges] at taken
      refine ⟨some x, _, 0, v, .edge reaches within leave (contains_header hl) ht, .first, merges,
        taken.symm, fun n named => ⟨?_, ?_⟩⟩
      · refine evolves.taken_dominated hf uses leave ?_
        rw [within, if_neg (by decide)]
        exact named
      · have above : f.Dominated n l.header 0 ∧ f.Precedes rank n phi.dest :=
          evolves.init_dominated hf hl uses way leave.feeds within named ranked (contains_header hl)
        exact above.2
  | true =>
      obtain ⟨before, first, k, enters, stays⟩ := reaches.exists_stays within
      have started := enters.block_eq hl hf
      have round := (stays.back leave ht).value hf evolves uses hl tracked enters
      obtain ⟨i, hi⟩ : ∃ i, first.env phi.dest = some i := by
        rcases round with ⟨-, nothing, -⟩ | ⟨i, hi, -⟩
        · exact absurd (merges.symm.trans nothing) nofun
        · exact ⟨i, hi⟩
      cases before with
      | none =>
          -- before anything has run, merged names have no values
          cases enters with
          | start init inside =>
              obtain ⟨index, hphi⟩ := evolves.header
              have nothing := init.undefined hf (mem_innerDefs_phi.mpr ⟨phi, hphi, rfl⟩)
              exact absurd (hi.symm.trans nothing) nofun
      | some origin =>
          obtain ⟨reached, feeds, away⟩ : f.Reachable origin.block ∧
              f.Feeds origin.block l.header ∧ l.contains origin.block = false := by
            cases enters with
            | @edge _ target _ reached away leave inside _ =>
                have header := hf.eq_header_of_enters hl leave.feeds inside away
                exact ⟨(reached.consistent hf uses).way, header ▸ leave.feeds, away⟩
          have same : x.env.operand iv.init = origin.env.operand iv.init := by
            refine Env.operand_congr fun n named => ?_
            have outside : ∀ q, f.place? n = some q → l.contains q.1 = false := fun q place =>
              evolves.init_outside hf hl uses reached feeds away named place
            exact (stays.kept hf outside hl started).trans (enters.kept hf outside)
          refine ⟨some origin, first, k + 1, i, enters, stays.back leave ht, hi, ?_, fun n named =>
            evolves.init_dominated hf hl uses reached feeds away named ranked within⟩
          rw [same, ← enters.first_value hf evolves hl, hi]

end Arrival

end Function

namespace Engine

variable {f : Function} {config : Config} {rank : BlockId → Nat} {x : ExecState}

/-- The loop of an evolution has the block as its header. -/
theorem evolutionAt?_eq_some {block : BlockId} {name : NameId} {ev : Evolution}
    (h : (Engine.ofFunction f config (.induction config.strictOverflow)).evolutionAt? block name =
      some ev) : ∃ l ∈ f.loops.loops, l.header = block ∧
      f.evolution? f.dominators config.strictOverflow l name = some ev := by
  obtain ⟨l, found, hev⟩ := Option.bind_eq_some_iff.mp h
  refine ⟨l, List.mem_of_find?_eq_some found, ?_, hev⟩
  have header := List.find?_some found
  exact eq_of_beq header

/-- The merge at a header that has an evolution is the one that evolves. -/
theorem evolves_of_evolution? (hf : f.Valid) {l : NaturalLoop} {index : Nat} {phi : Phi}
    {ev : Evolution} (hphi : f.phiAt? l.header index = some phi)
    (hev : f.evolution? f.dominators config.strictOverflow l phi.dest = some ev) :
    ∃ iv, f.Evolves l phi iv ev.step ∧ ev.init = iv.init ∧
      ev.tripCount =
        (if ev.step = 0 then none else f.tripCount? f.dominators l iv ev.step (f.typeOf phi.dest)) ∧
      ev.noWrap =
        (config.strictOverflow && (f.typeOf phi.dest).overflowUndefined || ev.tripCount.isSome) ∧
      ev.direction = .ofStep ev.step := by
  obtain ⟨phi', iv, evolves, same, rest⟩ := hf.evolution?_eq_some hev
  obtain rfl := hf.phi_unique (Function.mem_headerPhis.mpr ⟨index, hphi⟩)
    (Function.mem_headerPhis.mpr evolves.header) same
  exact ⟨iv, evolves, rest⟩

/-- Evolutions that are read off definitions start from an operand of their merge. -/
theorem induction_anchored (hf : f.Valid) :
    (Engine.ofFunction f config (.induction config.strictOverflow)).Anchored := by
  intro _ block index phi ev hphi found _
  obtain ⟨l, -, rfl, hev⟩ := evolutionAt?_eq_some found
  obtain ⟨iv, evolves, init, -⟩ := evolves_of_evolution? hf hphi hev
  obtain ⟨o, ho, value⟩ := evolves.starts
  exact ⟨o, ho, value.trans init.symm⟩

/-- If no block that leaves a loop raises an exception into it, evolutions that are read off
    definitions are true of executions. -/
theorem induction_onCourse (hf : f.Valid) (uses : f.UsesDominated) (integral : f.Integral)
    (ranked : f.RankedBy rank) (quiet : ∀ l ∈ f.loops.loops, f.Unraised l)
    (reaches : f.Reaches config x) {target : BlockId} (leave : f.Leaves x target) :
    (Engine.ofFunction f config (.induction config.strictOverflow)).OnCourse rank x target := by
  intro index phi ev t v _ hphi found noWrap ht merges
  obtain ⟨l, hl, rfl, hev⟩ := evolutionAt?_eq_some found
  obtain ⟨iv, evolves, init, trips, wraps, direction⟩ := evolves_of_evolution? hf hphi hev
  have tracked : (f.typeOf phi.dest).isTracked = true :=
    ScalarType.isTracked_of_isIntegral (integral phi.dest (hf.phi_dest_lt hphi))
  obtain ⟨before, first, k, i, enters, stays, hi, value, named⟩ :=
    evolves.arrival hf hl uses tracked ranked reaches leave ht merges
  have counted : ∀ t, ev.tripCount = some t → k + 1 ≤ t ∧
      ∀ j < t, (f.typeOf phi.dest).fits (i + j * ev.step) = true := by
    intro t some_
    rw [trips] at some_
    split at some_
    · cases some_
    · next moves =>
        obtain ⟨bound, fits⟩ :=
          stays.counted hf uses hl evolves tracked enters (quiet l hl) moves some_
        exact ⟨bound, fits i hi⟩
  -- the value is the first one and the step for each round
  obtain rfl : v = i + k * ev.step := by
    rcases stays.value hf evolves uses hl tracked enters with ⟨nothing, -⟩ | ⟨i', hi', wrapped, exact_⟩
    · exact absurd (hi.symm.trans nothing) nofun
    · cases hi.symm.trans hi'
      have fits : (f.typeOf phi.dest).fits (i + k * ev.step) = true := by
        rw [wraps, Bool.or_eq_true, Bool.and_eq_true] at noWrap
        rcases noWrap with ⟨strict, undefined⟩ | known
        · exact exact_ strict undefined
        · obtain ⟨t, ht⟩ := Option.isSome_iff_exists.mp known
          exact (counted t ht).2 k (counted t ht).1
      rw [ScalarType.wrap_of_fits fits] at wrapped
      exact Option.some.inj (merges.symm.trans wrapped)
  rw [← init] at value named
  have reading := Env.reading_total value
  obtain ⟨o, ho, same⟩ := evolves.starts
  refine ⟨⟨o, ho, same.trans init.symm⟩, ⟨i, value⟩, named, direction, ?_, ?_, ?_⟩
  · intro t some_
    obtain ⟨bound, fits⟩ := counted t some_
    right
    rw [Evolution.lastValue, reading, Int.mul_comm, Function.runType, effectiveType_fits]
    exact fits (t - 1) (by omega)
  · have way := Direction.leads_ofStep i ev.step (Nat.zero_le k)
    rw [direction, reading]
    simpa using way
  · intro t some_
    have bound := (counted t some_).1
    have way := @Direction.leads_ofStep i ev.step k (t - 1) (by omega)
    rw [direction, Evolution.lastValue, reading, Int.mul_comm ev.step]
    exact way

end Engine

end RangeFlow
