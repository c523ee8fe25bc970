import Mathlib
import RangeFlow.Proofs.Facts

/-! # Assertions are true

Every assertion that is found is about an edge of a branch or a switch, or about the point after an
access through a pointer. Whenever an execution passes that place, the name has a value there that
satisfies the predicate.
-/

namespace RangeFlow.Function

/-- Some execution passes the place with these values. An edge is passed before the merges at its
    end are computed. -/
inductive Passes (f : Function) (config : Config) : Locus → Env → Prop where
  | edge {s : ExecState} {id : EdgeId} {e : Edge} (h : f.Reaches config s)
      (he : f.edge? id = some e) (src : e.src = s.block) (leave : f.Leaves s e.dst) :
      Passes f config (.edge id) s.env
  | after {block : BlockId} {index : Nat} {env : Env}
      (h : f.Reaches config ⟨block, index + 1, env⟩) : Passes f config (.after block index) env

/-- If an assertion runs next, it holds. -/
def Asserted (f : Function) (s : ExecState) : Prop :=
  ∀ dest subject predicate,
    f.stmtAt? s.block s.index = some (.assign dest (.assert subject predicate)) →
    ∀ v, s.env subject = some v → predicate.Holds s.env v

/-- Some execution in which all assertions hold comes to the state. -/
inductive Arrives (f : Function) (config : Config) : ExecState → Prop where
  | start {env : Env} (h : f.Initial config env) : Arrives f config ⟨f.entry, 0, env⟩
  | step {s s' : ExecState} (h : Arrives f config s) (asserted : f.Asserted s)
      (step : f.Step config s s') : Arrives f config s'

theorem Arrives.reaches {f : Function} {config : Config} {s : ExecState}
    (h : f.Arrives config s) : f.Reaches config s := by
  induction h with
  | start init => exact .start init
  | step _ _ step ih => exact .step ih step

section Crossing

variable {f : Function} {config : Config} {s : ExecState} {e : Edge} {id : EdgeId}

/-- An edge that no exception takes is taken by the choice of the terminator. -/
theorem Leaves.selects {b : Block} (leave : f.Leaves s e.dst) (he : f.edge? id = some e)
    (src : e.src = s.block) (hb : f.block? s.block = some b) (normal : e.isAbnormal = false) :
    f.Selects s.env e.dst b.terminator ∧ s.index = b.stmts.length ∧
      ∃ flags, (e.dst, flags) ∈ b.outgoing ∧
        e.flags.onTrue = flags.onTrue ∧ e.flags.onFalse = flags.onFalse := by
  obtain ⟨b', t, flags, hb', -, out, hflags⟩ := mem_edges.mp (mem_edges_of_edge? he)
  rw [src, hb] at hb'
  cases hb'
  obtain ⟨b', hb', atEnd, taken⟩ := leave
  rw [hb] at hb'
  cases hb'
  refine ⟨?_, atEnd, flags, out, by rw [hflags], by rw [hflags]⟩
  rcases taken with selected | raised
  · exact selected
  · have abnormal := Block.abnormal_of_mem out raised
    rw [Edge.isAbnormal, hflags] at normal
    rw [abnormal] at normal
    cases normal

/-- The condition of an edge holds when a branch takes it. -/
theorem conditionOn?_holds {b : Block} {cond holds : Condition} {onTrue onFalse dst : BlockId}
    {flags : EdgeFlags} {env : Env} (ht : b.terminator = .branch cond onTrue onFalse)
    (selected : f.Selects env dst b.terminator) (out : (dst, flags) ∈ b.outgoing)
    (hon : conditionOn? cond flags = some holds) :
    holds.lhs = cond.lhs ∧ holds.rhs = cond.rhs ∧ ∃ x y, env.operand cond.lhs = some x ∧
      env.operand cond.rhs = some y ∧
      ((f.comparisonType? cond.lhs cond.rhs).all ScalarType.isTracked = true →
        holds.op.eval x y = true) := by
  rw [ht] at selected
  obtain ⟨truth, ⟨x, y, hx, hy, compared⟩, hdst⟩ := selected
  -- the flag of the arm that was taken is set, so the condition is the one of that arm
  have arm : holds = if truth then cond else cond.inverted := by
    cases truth with
    | true =>
        have flag : flags.onTrue = true := by
          rw [hdst] at out
          exact Block.onTrue_of_mem out ht
        cases other : flags.onFalse with
        | true => simp [conditionOn?, flag, other] at hon
        | false => simpa [conditionOn?, flag, other, eq_comm] using hon
    | false =>
        have flag : flags.onFalse = true := by
          rw [hdst] at out
          exact Block.onFalse_of_mem out ht
        cases other : flags.onTrue with
        | true => simp [conditionOn?, flag, other] at hon
        | false => simpa [conditionOn?, flag, other, eq_comm] using hon
  subst arm
  cases truth with
  | true => exact ⟨rfl, rfl, x, y, hx, hy, fun tracked => (compared tracked).symm⟩
  | false =>
      refine ⟨rfl, rfl, x, y, hx, hy, fun tracked => ?_⟩
      have fails := compared tracked
      simp only [Bool.false_eq_true, if_false, Condition.inverted, CmpOp.eval_invert, ← fails,
        Bool.not_false]

end Crossing

variable {f : Function} {config : Config}

/-- What a fact on an edge asks for is true if the fact is, whenever the edge is crossed. -/
theorem edgeAssertions_hold (hf : f.Valid) (uses : f.UsesDominated) {live : Liveness}
    {id : EdgeId} {fact : Fact}
    (crossed : ∀ s e, f.Reaches config s → f.edge? id = some e → e.src = s.block →
      f.Leaves s e.dst → fact.Holds f s.block s.index s.env)
    {a : AssertLocus} (ha : a ∈ f.edgeAssertions live id fact) {env : Env}
    (passes : f.Passes config a.locus env) : a.Holds env := by
  rw [locus_of_mem_assertionsWithin ha] at passes
  cases passes with
  | @edge s _ e reaches he src leave =>
      have consistent := reaches.consistent hf uses
      exact consistent.assertionsWithin hf uses (crossed s e reaches he src leave) a ha

/-- What a branch asks for on its edges is true. -/
theorem branchAssertions_hold (hf : f.Valid) (uses : f.UsesDominated) {live : Liveness}
    {block : BlockId} {b : Block} {cond : Condition} {onTrue onFalse : BlockId}
    (hb : f.block? block = some b) (ht : b.terminator = .branch cond onTrue onFalse)
    {a : AssertLocus} (ha : a ∈ f.branchAssertions live block cond) {env : Env}
    (passes : f.Passes config a.locus env) : a.Holds env := by
  have check : f.checkComparison cond.lhs cond.rhs = .ok () := by
    have checked := hf.terminators block b hb
    rw [ht] at checked
    exact checked
  have dominated : ∀ m, cond.lhs = .name m ∨ cond.rhs = .name m →
      f.Dominated m block b.stmts.length := by
    intro m hm
    refine uses.terminator block b m hb ?_
    rw [ht]
    rcases hm with hm | hm <;>
      simp [Terminator.usedNames, Terminator.operands, hm, Operand.name?]
  unfold branchAssertions at ha
  split at ha
  · cases ha
  · obtain ⟨⟨e, id⟩, he, ha⟩ := List.mem_flatMap.mp ha
    dsimp only at ha
    split at ha
    · next conditions =>
        obtain ⟨src, normal, -⟩ := conditions
        split at ha
        · next holds hon =>
            obtain ⟨fact, hfact, ha⟩ := List.mem_flatMap.mp ha
            refine edgeAssertions_hold hf uses ?_ ha passes
            intro s e' _ he' src' leave
            rw [edge?_of_mem_zipIdx he] at he'
            cases he'
            have here : s.block = block := src'.symm.trans src
            rw [← here] at hb dominated
            obtain ⟨selected, atEnd, flags, out, flagTrue, flagFalse⟩ :=
              leave.selects (edge?_of_mem_zipIdx he) src' hb (by simpa using normal)
            have hon' : conditionOn? cond flags = some holds := by
              simpa only [conditionOn?, flagTrue, flagFalse] using hon
            obtain ⟨left, right, x, y, hx, hy, true_⟩ := conditionOn?_holds ht selected out hon'
            rw [left, right] at hfact
            rw [← atEnd] at dominated
            exact comparisonFacts_hold check dominated hx hy true_ fact hfact
        · cases ha
    · cases ha

theorem addHull_eq_upsert :
    addHull = upsert SwitchCase.target Prod.fst
      (fun hull case => (hull.1, min hull.2.1 case.low, max hull.2.2 case.high))
      (fun case => (case.target, case.low, case.high)) := by
  funext hulls case
  unfold addHull upsert
  congr 1
  refine List.map_congr_left fun hull _ => ?_
  by_cases same : hull.1 = case.target <;> simp [same]

/-- The hulls of a list of cases cover each case with the same target. -/
theorem hulls_collected (cases : List SwitchCase) :
    Collected SwitchCase.target Prod.fst
      (fun (hull : BlockId × Int × Int) case => hull.2.1 ≤ case.low ∧ case.high ≤ hull.2.2)
      cases (cases.foldl addHull []) := by
  have start : Collected SwitchCase.target Prod.fst
      (fun (hull : BlockId × Int × Int) case => hull.2.1 ≤ case.low ∧ case.high ≤ hull.2.2)
      [] [] := .nil
  rw [addHull_eq_upsert]
  refine start.foldl_upsert (fun _ _ => rfl) ?_ ?_ (fun _ => rfl) ?_
  · intro hull new case covers
    dsimp only
    omega
  · intro hull new
    dsimp only
    omega
  · intro new
    dsimp only
    omega

/-- The ends of hulls of cases that fit a type fit it too. -/
theorem hulls_fit {ty : ScalarType} {cases : List SwitchCase}
    (h : ∀ case ∈ cases, ty.fits case.low = true ∧ ty.fits case.high = true) :
    ∀ hull ∈ cases.foldl addHull [], ty.fits hull.2.1 = true ∧ ty.fits hull.2.2 = true := by
  rw [addHull_eq_upsert]
  refine forall_mem_foldl_upsert (by simp) ?_ ?_
  · intro hull fits case hcase _
    have caseFits := h case hcase
    simp only [ScalarType.fits_iff] at fits caseFits ⊢
    omega
  · intro case hcase
    exact h case hcase

/-- An index between the ends of a hull satisfies the facts of the hull. -/
theorem hullFacts_hold {block : BlockId} {i : Nat} {env : Env} {n : NameId} {low high v : Int}
    (dominated : f.Dominated n block i) (hv : env n = some v)
    (lowFits : (f.typeOf n).fits low = true) (highFits : (f.typeOf n).fits high = true)
    (lower : low ≤ v) (upper : v ≤ high) :
    ∀ fact ∈ hullFacts n low high, fact.Holds f block i env := by
  intro fact hfact
  unfold hullFacts at hfact
  split at hfact
  · next single =>
      cases List.mem_singleton.mp hfact
      refine ⟨dominated, fun _ => lowFits, fun _ => ⟨v, low, hv, rfl, ?_⟩⟩
      simp only [CmpOp.eval, decide_eq_true_eq]
      omega
  · rcases List.mem_cons.mp hfact with rfl | hfact
    · refine ⟨dominated, fun _ => lowFits, fun _ => ⟨v, low, hv, rfl, ?_⟩⟩
      simpa [CmpOp.eval] using lower
    · cases List.mem_singleton.mp hfact
      refine ⟨dominated, fun _ => highFits, fun _ => ⟨v, high, hv, rfl, ?_⟩⟩
      simpa [CmpOp.eval] using upper

/-- An index value that selects a target with a hull lies in the hull. -/
theorem hull_bounds {block default target : BlockId} {low high v : Int} {cases : List SwitchCase}
    (hhull : (target, low, high) ∈ (cases.filter fun case =>
      case.target != default && case.target != block).foldl addHull [])
    (chosen : target = ((cases.find? (·.matches v)).map SwitchCase.target).getD default) :
    low ≤ v ∧ v ≤ high := by
  obtain ⟨origin, horigin, hkey⟩ := (hulls_collected _).origin _ hhull
  have other := (List.mem_filter.mp horigin).2
  rw [hkey] at other
  -- the target is not the default, so a case has been selected, and that case is in the hull
  cases hfind : cases.find? (·.matches v) with
  | none =>
      rw [hfind] at chosen
      simp [chosen] at other
  | some case =>
      rw [hfind] at chosen
      have caseTarget : target = case.target := chosen
      have member : case ∈ cases.filter fun case =>
          case.target != default && case.target != block := by
        refine List.mem_filter.mpr ⟨List.mem_of_find?_eq_some hfind, ?_⟩
        rw [← caseTarget]
        exact other
      have covered := (hulls_collected _).covered case member _ hhull caseTarget
      have inCase : case.low ≤ v ∧ v ≤ case.high := by
        simpa [SwitchCase.matches] using List.find?_some hfind
      exact ⟨Int.le_trans covered.1 inCase.1, Int.le_trans inCase.2 covered.2⟩

/-- What a switch asks for on its edges is true. -/
theorem switchAssertions_hold (hf : f.Valid) (uses : f.UsesDominated) {live : Liveness}
    {block : BlockId} {b : Block} {n : NameId} {cases : List SwitchCase} {default : BlockId}
    (hb : f.block? block = some b) (ht : b.terminator = .switch (.name n) cases default)
    {a : AssertLocus} (ha : a ∈ f.switchAssertions live block n cases default) {env : Env}
    (passes : f.Passes config a.locus env) : a.Holds env := by
  have fits : ∀ case ∈ cases,
      (f.typeOf n).fits case.low = true ∧ (f.typeOf n).fits case.high = true := by
    have checked := hf.terminators block b hb
    rw [ht] at checked
    obtain ⟨_, -, checked⟩ := bind_eq_ok.mp checked
    exact checkCases_fits checked
  have dominated : f.Dominated n block b.stmts.length := by
    refine uses.terminator block b n hb ?_
    simp [ht, Terminator.usedNames, Terminator.operands, Operand.name?]
  unfold switchAssertions at ha
  split at ha
  · obtain ⟨⟨target, low, high⟩, hhull, ha⟩ := List.mem_flatMap.mp ha
    dsimp only at ha
    split at ha
    · next id hid =>
        split at ha
        · cases ha
        · next normal =>
            obtain ⟨fact, hfact, ha⟩ := List.mem_flatMap.mp ha
            refine edgeAssertions_hold hf uses ?_ ha passes
            intro s e _ he src leave
            obtain ⟨e', he', src', dst⟩ := findEdge?_eq_some hid
            rw [he] at he'
            cases he'
            have here : s.block = block := src.symm.trans src'
            rw [← here] at hb dominated
            rw [he] at normal
            obtain ⟨selected, atEnd, -⟩ := leave.selects he src hb (by simpa using normal)
            rw [ht] at selected
            obtain ⟨v, hv, chosen⟩ := selected
            rw [← atEnd] at dominated
            have hullFits := hulls_fit (fun case hcase =>
              fits case (List.mem_filter.mp hcase).1) _ hhull
            have inside := hull_bounds hhull (dst.symm.trans chosen)
            exact hullFacts_hold dominated hv hullFits.1 hullFits.2 inside.1 inside.2 fact hfact
    · cases ha
  · cases ha

/-- A pointer that a statement has read or written through is not null after it. -/
theorem Reaches.dereferenced_ne_zero (hf : f.Valid) (uses : f.UsesDominated) {block : BlockId}
    {index : Nat} {env : Env} {stmt : Stmt} {pointer : NameId}
    (h : f.Reaches config ⟨block, index + 1, env⟩) (hstmt : f.stmtAt? block index = some stmt)
    (hderef : stmt.dereferenced? = some pointer) : ∃ v, env pointer = some v ∧ v ≠ 0 := by
  have named : ∀ address : Operand, address.name? = some pointer → address = .name pointer := by
    intro address name
    cases address with
    | name k => exact congrArg _ (Option.some.inj name)
    | const c => cases name
  cases h with
  | step reaches step =>
      cases step with
      | @stmt _ _ before _ stmt' hstmt' run =>
          rw [hstmt] at hstmt'
          cases hstmt'
          cases run with
          | @assign dest rhs value evaluates =>
              cases rhs with
              | load address =>
                  cases named address hderef
                  obtain ⟨⟨a, ha, nonzero⟩, -⟩ := evaluates
                  obtain ⟨passed, way⟩ := (reaches.consistent hf uses).way
                  have unread := uses.dest_not_read way (hf.defSite?_stmt hstmt rfl) hstmt
                  have kept : pointer ≠ dest := by
                    rintro rfl
                    exact unread (by simp [Stmt.usedNames, Rhs.usedNames, Rhs.operands,
                      Operand.name?])
                  exact ⟨a, (Env.set_of_ne before value kept).trans ha, nonzero⟩
              | copy | unary | binary | compare | select | assert | addressOf | call =>
                  cases hderef
          | store ha nonzero hv =>
              cases named _ hderef
              exact ⟨_, ha, nonzero⟩
          | nop => cases hderef

/-- The pointers from which a pointer that is not null was converted are not null. -/
theorem Consistent.castSources_ne_zero (hf : f.Valid) (uses : f.UsesDominated) {block : BlockId}
    {index : Nat} {env : Env} (consistent : f.Consistent config block index env) {fuel : Nat}
    {pointer : NameId} (dominated : f.Dominated pointer block index)
    (isPointer : (f.typeOf pointer).isPointer = true)
    (nonzero : ∃ v, env pointer = some v ∧ v ≠ 0) :
    ∀ source ∈ chain f.castSource? fuel pointer, ∃ v, env source = some v ∧ v ≠ 0 := by
  induction fuel generalizing pointer with
  | zero =>
      intro source hsource
      cases hsource
  | succ fuel ih =>
      intro source hsource
      rw [chain] at hsource
      split at hsource
      · next following hcast =>
          unfold castSource? at hcast
          split at hcast
          · next hdef =>
              split at hcast
              · next originPointer =>
                  cases hcast
                  obtain ⟨v, hv, ne⟩ := nonzero
                  obtain ⟨originDominated, x, hx, fits, wrapped⟩ :=
                    consistent.of_conversion hf uses hdef dominated
                      (ScalarType.isTracked_of_isPointer isPointer)
                      (ScalarType.isTracked_of_isPointer originPointer)
                  cases hv.symm.trans wrapped
                  have originNonzero : ∃ v, env following = some v ∧ v ≠ 0 := by
                    refine ⟨x, hx, ?_⟩
                    rintro rfl
                    exact ne (ScalarType.wrap_of_fits (ScalarType.fits_zero _))
                  rcases List.mem_cons.mp hsource with rfl | hsource
                  · exact originNonzero
                  · exact ih originDominated originPointer originNonzero source hsource
              · cases hcast
          · cases hcast
      · cases hsource

/-- Where the place after a statement is passed, exactly the statements up to it have run. -/
theorem Passes.reaches_of_locusAfter {block : BlockId} {index : Nat} {locus : Locus} {env : Env}
    {stmt : Stmt} (hstmt : f.stmtAt? block index = some stmt)
    (hlocus : f.locusAfter? block index = some locus) (passes : f.Passes config locus env) :
    f.Reaches config ⟨block, index + 1, env⟩ := by
  obtain ⟨b, hb, hi⟩ := stmtAt?_eq_some.mp hstmt
  have inside : index < b.stmts.length := (List.getElem?_eq_some_iff.mp hi).1
  simp only [locusAfter?, hb, Option.bind_some] at hlocus
  split at hlocus
  · cases hlocus
    cases passes with
    | after h => exact h
  · next last =>
      split at hlocus
      · next edge hedges =>
          cases hlocus
          cases passes with
          | @edge s _ e h he src leave =>
              have member : edge ∈ f.edgesWhere fun e => e.src == block && !e.isAbnormal := by
                rw [hedges]
                exact List.mem_singleton.mpr rfl
              obtain ⟨e', he', test⟩ := mem_edgesWhere.mp member
              rw [he] at he'
              cases he'
              have here : s.block = block := by
                rw [← src]
                simp only [Bool.and_eq_true, beq_iff_eq] at test
                exact test.1
              obtain ⟨b', hb', atEnd, -⟩ := leave
              rw [here, hb] at hb'
              cases hb'
              -- the statement is the last one of its block
              have final : s.index = index + 1 := by
                simp only [Bool.or_eq_true, decide_eq_true_eq, not_or] at last
                omega
              cases s
              cases here
              cases final
              exact h
      · cases hlocus

theorem mem_usedNames_of_dereferenced? {stmt : Stmt} {pointer : NameId}
    (hderef : stmt.dereferenced? = some pointer) : pointer ∈ stmt.usedNames := by
  cases stmt with
  | assign dest rhs =>
      cases rhs with
      | load address => exact List.mem_filterMap.mpr ⟨address, List.mem_singleton.mpr rfl, hderef⟩
      | copy | unary | binary | compare | select | assert | addressOf | call => cases hderef
  | store address value =>
      exact List.mem_filterMap.mpr ⟨address, List.mem_cons_self .., hderef⟩
  | nop => cases hderef

/-- What an access through a pointer asks for is true. -/
theorem dereferenceAssertions_hold (hf : f.Valid) (uses : f.UsesDominated) {live : Liveness}
    {block : BlockId} {index : Nat} {stmt : Stmt} {pointer : NameId}
    (hstmt : f.stmtAt? block index = some stmt) (hderef : stmt.dereferenced? = some pointer)
    {a : AssertLocus} (ha : a ∈ f.dereferenceAssertions live block index pointer) {env : Env}
    (passes : f.Passes config a.locus env) : a.Holds env := by
  have read := mem_usedNames_of_dereferenced? hderef
  unfold dereferenceAssertions at ha
  split at ha
  · next conditions =>
      have isPointer : (f.typeOf pointer).isPointer = true := by
        simp only [Bool.and_eq_true] at conditions
        exact conditions.1
      split at ha
      · next locus hlocus =>
          obtain ⟨name, hname, rfl⟩ := List.mem_map.mp ha
          have reaches := Passes.reaches_of_locusAfter hstmt hlocus passes
          have nonzero := reaches.dereferenced_ne_zero hf uses hstmt hderef
          have dominated : f.Dominated pointer block (index + 1) :=
            (uses.stmt block index stmt pointer hstmt read).mono (Nat.le_succ _)
          have notNull : ∃ v, env name = some v ∧ v ≠ 0 := by
            rcases List.mem_cons.mp hname with rfl | hname
            · exact nonzero
            · have consistent := reaches.consistent hf uses
              exact consistent.castSources_ne_zero hf uses dominated isPointer nonzero name
                (List.mem_filter.mp hname).1
          obtain ⟨v, hv, ne⟩ := notNull
          exact ⟨v, hv, 0, rfl, by simpa [CmpOp.eval] using ne⟩
      · cases ha
  · cases ha

/-- What a block asks for is true. -/
theorem blockAssertions_hold (hf : f.Valid) (uses : f.UsesDominated) {live : Liveness}
    {block : BlockId} {a : AssertLocus} (ha : a ∈ f.blockAssertions config live block) {env : Env}
    (passes : f.Passes config a.locus env) : a.Holds env := by
  unfold blockAssertions at ha
  split at ha
  · cases ha
  · next b hb =>
      rcases List.mem_append.mp ha with access | control
      · split at access
        · obtain ⟨⟨stmt, index⟩, hstmt, access⟩ := List.mem_flatMap.mp access
          dsimp only at access
          split at access
          · next pointer hderef =>
              have place : f.stmtAt? block index = some stmt :=
                stmtAt?_eq_some.mpr ⟨b, hb, by simpa using List.mem_zipIdx_iff_getElem?.mp hstmt⟩
              exact dereferenceAssertions_hold hf uses place hderef access passes
          · cases access
        · cases access
      · split at control
        · next ht => exact branchAssertions_hold hf uses hb ht control passes
        · next ht => exact switchAssertions_hold hf uses hb ht control passes
        · cases control

end RangeFlow.Function

namespace RangeFlow

/-- Registering a fact brings no other fact into the registry. -/
theorem Registry.mem_insert {f : Function} {t : DominatorTree} {new a : AssertLocus}
    {registry : Registry} (h : a ∈ registry.insert f t new) : a ∈ registry ∨ a = new := by
  induction registry with
  | nil => exact .inr (List.mem_singleton.mp h)
  | cons old rest ih =>
      rw [Registry.insert] at h
      split at h
      · next same =>
          split at h
          · exact .inl h
          · split at h
            · rcases List.mem_cons.mp h with rfl | h
              · right
                obtain ⟨name, predicate⟩ := same
                cases old
                cases new
                simp_all
              · exact .inl (List.mem_cons_of_mem _ h)
            · rcases List.mem_cons.mp h with rfl | h
              · exact .inl (List.mem_cons_self ..)
              · exact (ih h).imp (List.mem_cons_of_mem _) id
      · rcases List.mem_cons.mp h with rfl | h
        · exact .inl (List.mem_cons_self ..)
        · exact (ih h).imp (List.mem_cons_of_mem _) id

theorem Registry.mem_foldl_register {f : Function} {t : DominatorTree}
    {requests : List AssertLocus} {registry : Registry} {a : AssertLocus}
    (h : a ∈ requests.foldl (Registry.register f t) registry) : a ∈ registry ∨ a ∈ requests := by
  induction requests generalizing registry with
  | nil => exact .inl h
  | cons new requests ih =>
      rcases ih h with known | later
      · unfold Registry.register at known
        split at known
        · rcases Registry.mem_insert known with old | rfl
          · exact .inl old
          · exact .inr (List.mem_cons_self ..)
        · exact .inl known
      · exact .inr (List.mem_cons_of_mem _ later)

/-- The facts that are found have all been asked for. -/
theorem Function.mem_requested_of_mem_findAssertions {f : Function} {config : Config}
    {a : AssertLocus} (h : a ∈ f.findAssertions config) : a ∈ f.requestedAssertions config := by
  obtain ⟨n, -, h⟩ := List.mem_flatMap.mp h
  rcases Registry.mem_foldl_register (List.mem_filter.mp h).1 with none | asked
  · cases none
  · exact asked

/-- Every assertion that is found is true whenever an execution passes its place: the name has a
    value there, and the value satisfies the predicate. -/
theorem findAssertions_hold {f : Function} {config : Config} (valid : f.validate = .ok ())
    (uses : f.UsesDominated) {a : AssertLocus} (ha : a ∈ f.findAssertions config) {env : Env}
    (passes : f.Passes config a.locus env) : a.Holds env := by
  have hf := Function.valid_of_validate valid
  obtain ⟨block, -, ha⟩ := List.mem_flatMap.mp (Function.mem_requested_of_mem_findAssertions ha)
  exact Function.blockAssertions_hold hf uses ha passes

/-- Tests whether a byte lies between 10 and 15, by one comparison of a difference. -/
def windowTest : Function where
  name := "window"
  names :=
    [ ⟨.int ⟨8, eight_bits⟩ .unsigned, .param 0 false⟩,
      ⟨.int ⟨8, eight_bits⟩ .unsigned, .defined⟩ ]
  blocks :=
    [ ⟨[], [.assign 1 (.binary .sub (.name 0) (.const 10))],
        .branch ⟨.le, .name 1, .const 5⟩ 1 2, [], false⟩,
      .ofTerminator (.return (some (.name 0))),
      .ofTerminator (.return (some (.name 0))) ]

theorem windowTest_usesDominated : windowTest.UsesDominated :=
  Function.usesDominated_of_above [[], [0], [0]] (by decide) (by decide)

/-- With the argument 12 the test comes out true, and on that edge the argument is asserted to lie
    between 10 and 15. -/
theorem findAssertions_hold_windowTest :
    AssertLocus.Holds ⟨0, .within 10 15 false, .edge 0⟩ ((Env.empty.set 0 12).set 1 2) := by
  have found : windowTest.findAssertions {} =
      [⟨0, .within 10 15 false, .edge 0⟩, ⟨0, .within 10 15 true, .edge 1⟩] := by
    cbv
  have start : windowTest.Initial {} (Env.empty.set 0 12) := by
    intro n
    rcases n with _ | _ | n
    · exact ⟨12, rfl, fun _ => by decide, fun h => by cases h⟩
    · rfl
    · rfl
  have difference : windowTest.Step {} ⟨0, 0, Env.empty.set 0 12⟩
      ⟨0, 1, (Env.empty.set 0 12).set 1 2⟩ :=
    .stmt rfl (.assign ⟨12, 10, rfl, rfl, fun _ => by decide⟩)
  have passes : windowTest.Passes {} (.edge 0) ((Env.empty.set 0 12).set 1 2) := by
    refine .edge ((Function.Reaches.start start).step difference)
      (e := ⟨0, 1, { onTrue := true }⟩) (by decide) rfl ?_
    exact ⟨_, rfl, rfl, .inl ⟨true, ⟨2, 5, rfl, rfl, fun _ => rfl⟩, rfl⟩⟩
  exact findAssertions_hold rfl windowTest_usesDominated (by rw [found]; decide) passes

end RangeFlow
