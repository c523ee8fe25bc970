import RangeFlow.Proofs.AssertedSteps
import RangeFlow.Proofs.BackEdges
import RangeFlow.Proofs.PreparedRuns

/-! # Results are conservative

The function with assertions has the properties that the propagation relies on if the function has,
and its executions follow those of the function. So the result of an analysis holds all values that
names have in executions of the function.
-/

namespace RangeFlow

namespace RangeResult

/-- Control can go from one block to another by an edge, or by a block that was put on the edge. -/
def Crosses (r : RangeResult) (g : Function) (src dst : BlockId) : Prop :=
  r.Takes g src dst ∨ ∃ block, g.OnSplit block dst ∧ r.isBlockExecutable block = true ∧
    r.Takes g src block ∧ r.Takes g block dst

end RangeResult

namespace Function

theorem Tame.asserted {f : Function} (tame : f.Tame) {config : Config}
    (entered : (f.predEdges f.entry).length ≠ 1) : (f.asserted (f.findAssertions config)).Tame := by
  obtain ⟨hf, uses, integral, limits, unary, reducible⟩ := tame
  have facts := hf.observed uses config
  have renames := renames_readAs hf facts
  exact
    { valid := valid_asserted hf facts
      uses := usesDominated_asserted hf uses facts entered
      integral := integral_asserted facts.found integral
      limits :=
        limitsTyped_asserted hf renames (fun l hl => typed_of_mem_findAssertions hf hl) limits
      unary := unaryTyped_asserted hf renames unary
      reducible := reducible_asserted facts.found outline_asserted hf reducible }

/-- A state of the prepared function stands for a state of the function. -/
structure StandsFor (f g : Function) (config : Config) (x y : ExecState) : Prop where
  block : y.block = x.block
  agree : y.env.AgreesBelow f.nameCount x.env
  type : ∀ n < f.nameCount, g.runType config n = f.runType config n
  set : ∀ n, f.Dominated n x.block x.index → g.Dominated n y.block y.index
  leaves : ∀ target, f.Leaves x target → g.Leaves y target ∨ ∃ y', g.Arrives config y' ∧
    g.Leaves y y'.block ∧ g.OnSplit y'.block target ∧ g.Leaves y' target

theorem Reaches.arrives {f : Function} {config : Config} {x : ExecState}
    (truthful : ∀ y, f.Reaches config y → f.Asserted y) (h : f.Reaches config x) :
    f.Arrives config x := by
  induction h with
  | start init => exact .start init
  | step before step ih => exact ih.step (truthful _ before) step

/-- The prepared function keeps what the analysis relies on, and follows every execution. -/
theorem Tame.prepared {f g : Function} (tame : f.Tame) {config : Config}
    {records : List AssertionRecord} (h : (Pass.ofConfig config).prepare f = (g, records))
    (truthful : ∀ y, f.Reaches config y → f.Asserted y)
    (entered : config.insertAssertions = true → (f.predEdges f.entry).length ≠ 1) {x : ExecState}
    (reaches : f.Reaches config x) :
    g.Tame ∧ ∃ y, g.Arrives config y ∧ f.StandsFor g config x y := by
  unfold Pass.prepare Pass.ofConfig at h
  dsimp only at h
  split at h
  · next inserts =>
      have facts := tame.valid.observed tame.uses config
      rw [insertAssertions_eq, materialize_eq facts.found tame.valid] at h
      obtain ⟨rfl, -⟩ := Prod.mk.inj h
      refine ⟨tame.asserted (entered inserts), ?_⟩
      obtain ⟨y, arrives, follows⟩ :=
        reaches.follows tame.valid tame.uses facts (entered inserts) truthful
      have old : x.block < f.blockCount :=
        tame.valid.reachable_lt (reaches.consistent tame.valid tame.uses).way
      refine ⟨y, arrives, follows.block, follows.agree, fun n known => ?_, fun n set => ?_,
        fun target leave => ?_⟩
      · rw [runType, runType, typeOf_renameUses, typeOf_withAssertions_old known]
      · rw [follows.block, follows.index]
        exact (dominated_withAssertions tame.valid facts.found old set (Nat.le_refl _)).renameUses
      · obtain ⟨y', arrives', -, -, leave', rfl | ⟨first, split⟩⟩ :=
          follows.leaves tame.valid tame.uses facts (entered inserts) arrives reaches leave
        · exact .inl leave'
        · exact .inr ⟨y', arrives', first, split, leave'⟩
  · obtain ⟨rfl, -⟩ := Prod.mk.inj h
    exact ⟨tame, x, reaches.arrives truthful, rfl, fun _ _ => rfl, fun _ _ => rfl, fun _ set => set,
      fun _ leave => .inl leave⟩

end Function

namespace Pass

variable {config : Config} {f g : Function} {records : List AssertionRecord} {r : RangeResult}
  {stripped : Function} {x : ExecState}

end Pass

/-- Counts to one, with the test in front of the step, and then compares the counter. -/
def countOnce : Function where
  name := "once"
  names :=
    [ ⟨.int ⟨8, eight_bits⟩ .unsigned, .defined⟩,
      ⟨.int ⟨8, eight_bits⟩ .unsigned, .defined⟩,
      ⟨.int ⟨1, one_bit⟩ .unsigned, .defined⟩ ]
  blocks :=
    [ .ofTerminator (.jump 1),
      ⟨[⟨0, [⟨0, .const 0⟩, ⟨2, .name 1⟩]⟩], [], .branch ⟨.lt, .name 0, .const 1⟩ 2 3, [], false⟩,
      ⟨[], [.assign 1 (.binary .add (.name 0) (.const 1))], .jump 1, [], false⟩,
      ⟨[], [.assign 2 (.compare .le (.name 0) (.const 1))], .return (some (.name 2)), [], false⟩ ]

/-- The function with its assertions. -/
def countOnceAsserted : Function where
  name := "once"
  names := countOnce.names ++
    [⟨.int ⟨8, eight_bits⟩ .unsigned, .defined⟩, ⟨.int ⟨8, eight_bits⟩ .unsigned, .defined⟩]
  blocks :=
    [ .ofTerminator (.jump 1),
      ⟨[⟨0, [⟨0, .const 0⟩, ⟨2, .name 1⟩]⟩], [], .branch ⟨.lt, .name 0, .const 1⟩ 2 3, [], false⟩,
      ⟨[], [.assign 3 (.assert 0 (.compare .lt (.const 1))),
        .assign 1 (.binary .add (.name 3) (.const 1))], .jump 1, [], false⟩,
      ⟨[], [.assign 4 (.assert 0 (.compare .ge (.const 1))),
        .assign 2 (.compare .le (.name 4) (.const 1))], .return (some (.name 2)), [], false⟩ ]

/-- What is asserted about the counter in the loop and behind it. -/
def countOnceRecords : List AssertionRecord :=
  [⟨0, 3, 2, .compare .lt (.const 1)⟩, ⟨0, 4, 3, .compare .ge (.const 1)⟩]

/-- Everything is switched on, and visits are bounded. -/
def countOnceConfig : Config := { maxVisits := 100 }

theorem insertAssertions_countOnce : countOnce.insertAssertions countOnceConfig =
    (countOnceAsserted, countOnceRecords) := by
  have tree : countOnce.dominators = ⟨0, #[some [], some [0], some [1, 0], some [1, 0]]⟩ :=
    headTested_dominators
  have found : countOnce.findAssertions countOnceConfig =
      [⟨0, .compare .lt (.const 1), .edge 1⟩, ⟨0, .compare .ge (.const 1), .edge 2⟩] := by
    simp only [Function.findAssertions, tree]
    cbv
  rw [Function.insertAssertions_of_stages rfl found headTested_dominators]
  rfl

/-- The fixed part for the function, written out. -/
def countOnceEngine : Engine where
  f := countOnceAsserted
  config := countOnceConfig
  oracle := .induction true
  dominators := ⟨0, #[some [], some [0], some [1, 0], some [1, 0]]⟩
  loops := ⟨4, [headTestedLoop]⟩
  backEdges := [false, false, false, true]

theorem ofFunction_countOnce :
    Engine.ofFunction countOnceAsserted countOnceConfig (.induction true) = countOnceEngine := by
  have tree : countOnceAsserted.dominators = countOnceEngine.dominators := headTested_dominators
  have loops : LoopForest.ofGraph countOnceAsserted.graph countOnceEngine.dominators =
      countOnceEngine.loops := by
    cbv
  exact countOnceEngine.ofFunction_eq tree loops (by decide)

/-- The state in which the propagation comes to its end. -/
def countOnceEnd : EngineState where
  table :=
    { names := countOnceAsserted.names
      ranges :=
        [ some (.range (.const 0) (.const 1)), some (.singleton 1), some (.singleton 1),
          some ⟨.inside (.const 0) (.const 0), .ofList [0]⟩,
          some ⟨.inside (.const 1) (.const 1), .ofList [0]⟩ ] }
  executableEdges := [true, true, true, true]
  executableBlocks := [true, true, true, true]
  edgeWork := []
  varyingWork := []
  changedWork := []
  queued := [false, false, false, false, false]
  settled := [.terminator 3, .terminator 1]
  phiEdges := [2, 0, 0, 0, 0]
  visits := 13

theorem countOnce_run :
    (Engine.ofFunction countOnceAsserted countOnceConfig (.induction true)).run =
      (countOnceEnd, true) := by
  rw [ofFunction_countOnce]
  rfl

theorem countOnce_above : countOnce.Above [[], [0], [0, 1], [0, 1]] := by
  decide

theorem countOnce_usesDominated : countOnce.UsesDominated :=
  Function.usesDominated_of_above _ countOnce_above (by decide)

theorem countOnce_reducible : countOnce.Reducible :=
  ⟨id, Function.rankedBy_of_above countOnce_above (by decide)⟩

theorem countOnce_integral : countOnce.Integral := by
  have each : ∀ n < 3, (countOnce.typeOf n).isIntegral = true := by decide
  exact each

/-- The function only adds and compares. -/
theorem countOnce_rhs {b : Block} {dest : NameId} {rhs : Rhs} (hb : b ∈ countOnce.blocks)
    (h : .assign dest rhs ∈ b.stmts) :
    rhs = .binary .add (.name 0) (.const 1) ∨ rhs = .compare .le (.name 0) (.const 1) := by
  simp only [countOnce, Block.ofTerminator, List.mem_cons, List.not_mem_nil, or_false] at hb
  rcases hb with rfl | rfl | rfl | rfl <;> simp at h
  · exact .inl h.2
  · exact .inr h.2

theorem countOnce_limitsTyped : countOnce.LimitsTyped := by
  intro b hb dest rhs h
  rcases countOnce_rhs hb h with rfl | rfl <;> trivial

theorem countOnce_unaryTyped : countOnce.UnaryTyped := by
  intro b hb dest rhs h
  rcases countOnce_rhs hb h with rfl | rfl <;> trivial

theorem countOnce_asserted (s : ExecState) : countOnce.Asserted s := by
  intro dest subject predicate hstmt
  obtain ⟨b, hb, hi⟩ := Function.stmtAt?_eq_some.mp hstmt
  rcases countOnce_rhs (List.mem_of_getElem? hb) (List.mem_of_getElem? hi) with same | same <;>
    cases same

theorem countOnceAsserted_unraised {l : NaturalLoop} (hl : l ∈ countOnceAsserted.loops.loops) :
    countOnceAsserted.Unraised l := by
  have loops : countOnceAsserted.loops.loops = [headTestedLoop] := headTested_loops
  rw [loops, List.mem_singleton] at hl
  intro exit hexit b hb t raised
  rw [hl] at hexit
  rw [List.mem_singleton.mp hexit] at hb
  cases hb
  cases raised

theorem prepare_countOnce : (Pass.ofConfig countOnceConfig).prepare countOnce =
    (countOnceAsserted, countOnceRecords) :=
  insertAssertions_countOnce

theorem run_countOnce : (Pass.ofConfig countOnceConfig).run countOnce =
    .ok (countOnceAsserted.stripAssertions.1,
      .harvest countOnceAsserted countOnceEnd true countOnceRecords) :=
  Pass.run_of_propagation rfl prepare_countOnce countOnce_run

theorem current_countOnce : (RangeResult.harvest countOnceAsserted countOnceEnd true
    countOnceRecords).Current countOnceAsserted countOnceConfig := by
  intro block index dest op lhs rhs executable hstmt
  rcases block with _ | _ | _ | _ | block
  case succ.succ.succ.zero =>
    rcases index with _ | _ | index
    · cases hstmt
    · cases hstmt
      exact .inr rfl
    · cases hstmt
  case succ.succ.zero => rcases index with _ | _ | index <;> cases hstmt
  all_goals cases hstmt

/-- In the last round the counter is one. -/
theorem countOnce_reaches : ∃ env, countOnce.Reaches countOnceConfig ⟨3, 1, env⟩ ∧
    env 0 = some 1 := by
  have start : countOnce.Initial countOnceConfig Env.empty := by
    intro n
    rcases n with _ | _ | _ | n <;> rfl
  have first : countOnce.Reaches countOnceConfig ⟨1, 0, _⟩ :=
    (Function.Reaches.start start).step (.edge ⟨_, rfl, rfl, .inl rfl⟩ rfl)
  have inside : countOnce.Reaches countOnceConfig ⟨2, 0, _⟩ :=
    first.step (.edge ⟨_, rfl, rfl, .inl ⟨true, ⟨0, 1, rfl, rfl, fun _ => rfl⟩, rfl⟩⟩ rfl)
  have counted : countOnce.Reaches countOnceConfig ⟨2, 1, Env.set _ 1 1⟩ :=
    inside.step (.stmt rfl (.assign ⟨0, 1, rfl, rfl, fun _ => rfl⟩))
  have second : countOnce.Reaches countOnceConfig ⟨1, 0, _⟩ :=
    counted.step (.edge ⟨_, rfl, rfl, .inl rfl⟩ rfl)
  have behind : countOnce.Reaches countOnceConfig ⟨3, 0, _⟩ :=
    second.step (.edge ⟨_, rfl, rfl, .inl ⟨false, ⟨1, 1, rfl, rfl, fun _ => rfl⟩, rfl⟩⟩ rfl)
  have compared : countOnce.Reaches countOnceConfig ⟨3, 1, Env.set _ 2 1⟩ :=
    behind.step (.stmt rfl (.assign ⟨true, ⟨1, 1, rfl, rfl, fun _ => rfl⟩, fun _ => rfl⟩))
  exact ⟨_, compared, rfl⟩

namespace Pass

variable {config : Config} {f : Function} {x : ExecState}

/-- The result of an analysis is not true of some execution: it excludes a block that is entered, or
    the value of a name. -/
def Misses (config : Config) (f : Function) : Prop :=
  ∃ stripped r x, (ofConfig config).run f = .ok (stripped, r) ∧ f.Reaches config x ∧
    (r.isBlockExecutable x.block = false ∨ ∃ n v vr, x.env n = some v ∧ r.range? n = some vr ∧
      ¬ vr.Holds x.env.total (f.runType config n) v)

theorem misses_of_range (n : NameId) (v lo hi : Int) {equiv : IdSet}
    (range : ((ofConfig config).run f).map (·.2.range? n) =
      .ok (some ⟨.inside (.const lo) (.const hi), equiv⟩))
    (reaches : f.Reaches config x) (hv : x.env n = some v) (outside : ¬ (lo ≤ v ∧ v ≤ hi)) :
    Misses config f := by
  cases result : (ofConfig config).run f with
  | error e =>
      rw [result] at range
      cases range
  | ok p =>
      rw [result] at range
      exact ⟨p.1, p.2, x, result, reaches, .inr ⟨n, v, _, hv, Except.ok.inj range, outside⟩⟩

theorem misses_of_block
    (block : ((ofConfig config).run f).map (·.2.isBlockExecutable x.block) = .ok false)
    (reaches : f.Reaches config x) : Misses config f := by
  cases result : (ofConfig config).run f with
  | error e =>
      rw [result] at block
      cases block
  | ok p =>
      rw [result] at block
      exact ⟨p.1, p.2, x, result, reaches, .inl (Except.ok.inj block)⟩

end Pass

/-- Neither assertions nor evolutions are used. -/
def plainConfig : Config := { insertAssertions := false, useEvolution := false, maxVisits := 100 }

/-- Asserts of any number that it is zero or one. -/
def assertTooMuch : Function where
  name := "untrue"
  names :=
    [ ⟨.int ⟨8, eight_bits⟩ .unsigned, .param 0 false⟩,
      ⟨.int ⟨8, eight_bits⟩ .unsigned, .defined⟩ ]
  blocks :=
    [ ⟨[], [.assign 1 (.assert 0 (.within 0 1 false))], .return (some (.name 1)), [], false⟩ ]

/-- Assertions of the function itself that do not hold: the range is what is asserted. -/
theorem Pass.run_misses_assertTooMuch : assertTooMuch.validate = .ok () ∧
    assertTooMuch.UsesDominated ∧ assertTooMuch.Integral ∧ Misses plainConfig assertTooMuch := by
  have range : ((ofConfig plainConfig).run assertTooMuch).map (·.2.range? 1) =
      .ok (some ⟨.inside (.const 0) (.const 1), .ofList [0]⟩) := by
    rfl
  have start : assertTooMuch.Initial plainConfig (Env.empty.set 0 5) := by
    intro n
    rcases n with _ | _ | n
    · exact ⟨5, rfl, fun _ => by decide, fun h => by cases h⟩
    all_goals rfl
  have asserted : assertTooMuch.Reaches plainConfig ⟨0, 1, Env.set _ 1 5⟩ :=
    (Function.Reaches.start start).step (.stmt rfl (.assign rfl))
  exact ⟨rfl, Function.usesDominated_of_above [[]] (by decide) (by decide),
    (by decide : ∀ n < 2, (assertTooMuch.typeOf n).isIntegral = true),
    misses_of_range 1 5 0 1 range asserted rfl (by decide)⟩

/-- Adds a hundred to a number that is asserted to lie between 200 and 1000, where the type ends at
    255. -/
def addToMisfit : Function where
  name := "wide"
  names :=
    [ ⟨.int ⟨8, eight_bits⟩ .unsigned, .param 0 false⟩,
      ⟨.int ⟨8, eight_bits⟩ .unsigned, .defined⟩,
      ⟨.int ⟨8, eight_bits⟩ .unsigned, .defined⟩ ]
  blocks :=
    [ ⟨[], [.assign 1 (.assert 0 (.within 200 1000 false)),
        .assign 2 (.binary .add (.name 1) (.const 100))], .return (some (.name 2)), [], false⟩ ]

/-- Limits of assertions that do not fit: both ends of the sum wrap, and 99, which is 255 + 100, is
    missed. -/
theorem Pass.run_misses_addToMisfit : addToMisfit.validate = .ok () ∧ addToMisfit.UsesDominated ∧
    addToMisfit.Integral ∧ Misses plainConfig addToMisfit := by
  have range : ((ofConfig plainConfig).run addToMisfit).map (·.2.range? 2) =
      .ok (some (.range (.const 44) (.const 76))) := by
    rfl
  have start : addToMisfit.Initial plainConfig (Env.empty.set 0 255) := by
    intro n
    rcases n with _ | _ | _ | n
    · exact ⟨255, rfl, fun _ => by decide, fun h => by cases h⟩
    all_goals rfl
  have asserted : addToMisfit.Reaches plainConfig ⟨0, 1, Env.set _ 1 255⟩ :=
    (Function.Reaches.start start).step (.stmt rfl (.assign rfl))
  have added : addToMisfit.Reaches plainConfig ⟨0, 2, Env.set _ 2 99⟩ :=
    asserted.step (.stmt rfl (.assign ⟨255, 100, rfl, rfl, fun _ => rfl⟩))
  exact ⟨rfl, Function.usesDominated_of_above [[]] (by decide) (by decide),
    (by decide : ∀ n < 3, (addToMisfit.typeOf n).isIntegral = true),
    misses_of_range 2 99 44 76 range added rfl (by decide)⟩

/-- The opposite of a number of eight bits, in a type of four bits. -/
def negateWider : Function where
  name := "narrow"
  names :=
    [ ⟨.int ⟨8, eight_bits⟩ .unsigned, .param 0 false⟩,
      ⟨.int ⟨8, eight_bits⟩ .unsigned, .defined⟩,
      ⟨.int ⟨4, by decide⟩ .unsigned, .defined⟩ ]
  blocks :=
    [ ⟨[], [.assign 1 (.assert 0 (.within 20 100 false)), .assign 2 (.unary .negate (.name 1))],
        .return (some (.name 2)), [], false⟩ ]

/-- Operands of unary operators that have another type: the opposites of both ends are 12, and that
    of 25, which is 7, is missed. -/
theorem Pass.run_misses_negateWider : negateWider.validate = .ok () ∧ negateWider.UsesDominated ∧
    negateWider.Integral ∧ Misses plainConfig negateWider := by
  have range : ((ofConfig plainConfig).run negateWider).map (·.2.range? 2) =
      .ok (some (.range (.const 12) (.const 12))) := by
    rfl
  have start : negateWider.Initial plainConfig (Env.empty.set 0 25) := by
    intro n
    rcases n with _ | _ | _ | n
    · exact ⟨25, rfl, fun _ => by decide, fun h => by cases h⟩
    all_goals rfl
  have asserted : negateWider.Reaches plainConfig ⟨0, 1, Env.set _ 1 25⟩ :=
    (Function.Reaches.start start).step (.stmt rfl (.assign rfl))
  have negated : negateWider.Reaches plainConfig ⟨0, 2, Env.set _ 2 7⟩ :=
    asserted.step (.stmt rfl (.assign ⟨25, rfl, rfl⟩))
  exact ⟨rfl, Function.usesDominated_of_above [[]] (by decide) (by decide),
    (by decide : ∀ n < 3, (negateWider.typeOf n).isIntegral = true),
    misses_of_range 2 7 12 12 range negated rfl (by decide)⟩

/-- Goes back to the entry block while a number is less than ten. -/
def backToEntry : Function where
  name := "back"
  names := [⟨.int ⟨8, eight_bits⟩ .signed, .param 0 false⟩]
  blocks :=
    [ .ofTerminator (.jump 1), .ofTerminator (.branch ⟨.lt, .name 0, .const 10⟩ 0 2),
      .ofTerminator (.return (some (.name 0))) ]

/-- The entry block with one edge into it: what the edge asserts stands in the entry block, and the
    way out of the loop is missed. -/
theorem Pass.run_misses_backToEntry : backToEntry.validate = .ok () ∧ backToEntry.UsesDominated ∧
    backToEntry.Integral ∧ Misses countOnceConfig backToEntry := by
  have block : ((ofConfig countOnceConfig).run backToEntry).map (·.2.isBlockExecutable 2) =
      .ok false := by
    cbv
  have start : backToEntry.Initial countOnceConfig (Env.empty.set 0 100) := by
    intro n
    rcases n with _ | n
    · exact ⟨100, rfl, fun _ => by decide, fun h => by cases h⟩
    · rfl
  have tested : backToEntry.Reaches countOnceConfig ⟨1, 0, _⟩ :=
    (Function.Reaches.start start).step (.edge ⟨_, rfl, rfl, .inl rfl⟩ rfl)
  have left : backToEntry.Reaches countOnceConfig ⟨2, 0, _⟩ :=
    tested.step (.edge ⟨_, rfl, rfl, .inl ⟨false, ⟨100, 10, rfl, rfl, fun _ => rfl⟩, rfl⟩⟩ rfl)
  exact ⟨rfl, Function.usesDominated_of_above [[], [0], [0, 1]] (by decide) (by decide),
    (by decide : ∀ n < 1, (backToEntry.typeOf n).isIntegral = true), misses_of_block block left⟩

/-- Counts to one. The block that tests the counter may raise an exception into the loop. -/
def countRaising : Function where
  name := "raise"
  names :=
    [ ⟨.int ⟨8, eight_bits⟩ .unsigned, .defined⟩, ⟨.int ⟨8, eight_bits⟩ .unsigned, .defined⟩ ]
  blocks :=
    [ .ofTerminator (.jump 1),
      ⟨[⟨0, [⟨0, .const 0⟩, ⟨2, .name 1⟩]⟩], [.assign 1 (.binary .add (.name 0) (.const 1))],
        .branch ⟨.lt, .name 0, .const 1⟩ 2 3, [2], false⟩,
      .ofTerminator (.jump 1), .ofTerminator (.return (some (.name 0))) ]

/-- The fixed part for the function, written out. -/
def countRaisingEngine : Engine where
  f := countRaising
  config := { insertAssertions := false, maxVisits := 100 }
  oracle := .induction true
  dominators := ⟨0, #[some [], some [0], some [1, 0], some [1, 0]]⟩
  loops := ⟨4, [headTestedLoop]⟩
  backEdges := [false, false, false, true]

theorem ofFunction_countRaising : Engine.ofFunction countRaising countRaisingEngine.config
    countRaisingEngine.oracle = countRaisingEngine := by
  have tree : countRaising.dominators = countRaisingEngine.dominators := headTested_dominators
  have loops : LoopForest.ofGraph countRaising.graph countRaisingEngine.dominators =
      countRaisingEngine.loops := by
    cbv
  exact countRaisingEngine.ofFunction_eq tree loops (by decide)

/-- Exceptions out of a loop back into it: they are not counted among its rounds, and the third
    round, in which the counter is two, is missed. -/
theorem Pass.run_misses_countRaising : countRaising.validate = .ok () ∧ countRaising.UsesDominated ∧
    countRaising.Integral ∧ Misses countRaisingEngine.config countRaising := by
  have result : (ofConfig countRaisingEngine.config).run countRaising =
      .ok (_, .harvest countRaising countRaisingEngine.run.1 countRaisingEngine.run.2 []) :=
    run_of_propagation rfl rfl
      ((congrArg Engine.run ofFunction_countRaising).trans Prod.mk.eta.symm)
  have range : (RangeResult.harvest countRaising countRaisingEngine.run.1 countRaisingEngine.run.2
      []).range? 0 = some (.range (.const 0) (.const 1)) := by
    rfl
  have start : countRaising.Initial countRaisingEngine.config Env.empty := by
    intro n
    rcases n with _ | _ | n <;> rfl
  have first : countRaising.Reaches countRaisingEngine.config ⟨1, 0, _⟩ :=
    (Function.Reaches.start start).step (.edge ⟨_, rfl, rfl, .inl rfl⟩ rfl)
  have one : countRaising.Reaches countRaisingEngine.config ⟨1, 1, Env.set _ 1 1⟩ :=
    first.step (.stmt rfl (.assign ⟨0, 1, rfl, rfl, fun _ => rfl⟩))
  have around : countRaising.Reaches countRaisingEngine.config ⟨2, 0, _⟩ :=
    one.step (.edge ⟨_, rfl, rfl, .inl ⟨true, ⟨0, 1, rfl, rfl, fun _ => rfl⟩, rfl⟩⟩ rfl)
  have second : countRaising.Reaches countRaisingEngine.config ⟨1, 0, _⟩ :=
    around.step (.edge ⟨_, rfl, rfl, .inl rfl⟩ rfl)
  have two : countRaising.Reaches countRaisingEngine.config ⟨1, 1, Env.set _ 1 2⟩ :=
    second.step (.stmt rfl (.assign ⟨1, 1, rfl, rfl, fun _ => rfl⟩))
  have raised : countRaising.Reaches countRaisingEngine.config ⟨2, 0, _⟩ :=
    two.step (.edge ⟨_, rfl, rfl, .inr (by decide)⟩ rfl)
  have third : countRaising.Reaches countRaisingEngine.config ⟨1, 0, _⟩ :=
    raised.step (.edge ⟨_, rfl, rfl, .inl rfl⟩ rfl)
  exact ⟨rfl, Function.usesDominated_of_above [[], [0], [0, 1], [0, 1]] (by decide) (by decide),
    (by decide : ∀ n < 2, (countRaising.typeOf n).isIntegral = true),
    misses_of_range 0 2 0 1 (by rw [result]; exact congrArg Except.ok range) third rfl (by decide)⟩

/-- Control that can enter a cycle at two of its blocks: the comparison with the name whose value
    has changed since is decided, and its other value is missed. -/
theorem Pass.run_misses_twoEntries : twoEntries.validate = .ok () ∧ twoEntries.UsesDominated ∧
    twoEntries.Integral ∧ Misses plainConfig twoEntries := by
  have result : (ofConfig plainConfig).run twoEntries =
      .ok (_, .harvest twoEntries twoEntriesEnd true []) :=
    run_of_propagation rfl rfl twoEntries_run
  obtain ⟨env, reaches, -, -, value⟩ := twoEntries_reaches
  exact ⟨rfl, Function.usesDominated_of_above [[], [0], [0], [0, 1]] (by decide) (by decide),
    (by decide : ∀ n < 7, (twoEntries.typeOf n).isIntegral = true),
    misses_of_range 6 0 1 1 (by rw [result]; rfl) reaches value (by decide)⟩

end RangeFlow
