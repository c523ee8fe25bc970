import RangeFlow.Analysis.Result
import RangeFlow.Proofs.Dominance
import RangeFlow.Proofs.Execution
import RangeFlow.Proofs.Fixpoint

/-! # Comparisons at the end of a propagation

A comparison reads the ranges of its sides and of all names that are known to equal them, but is
visited again only when a side changes. So at the end its result may rest on earlier ranges of names
that equal a side. Where the sides settle the comparison alone, or change whenever a name that
equals one does, the result is up to date.
-/

namespace RangeFlow

namespace Query

variable {q q' : Query}

/-- The name is known to hold the same value as a side of a comparison, or is a side itself. -/
def EqualsSide (q : Query) (lhs rhs : Operand) (n : NameId) : Prop :=
  ∃ side, (lhs = .name side ∨ rhs = .name side) ∧ n ∈ q.equivalents side

theorem mem_equivalents_self (q : Query) (n : NameId) : n ∈ q.equivalents n := by
  simp only [equivalents]
  split
  · next known => exact List.contains_iff_mem.mp known
  · exact List.mem_cons_self ..

theorem EqualsSide.side {lhs rhs : Operand} {n : NameId} (h : lhs = .name n ∨ rhs = .name n) :
    q.EqualsSide lhs rhs n :=
  ⟨n, h, q.mem_equivalents_self n⟩

theorem equivalents_congr {n : NameId} (h : q'.rangeOf n = q.rangeOf n) :
    q'.equivalents n = q.equivalents n := by
  simp only [equivalents, h]

theorem comparedRange_congr {n : NameId} (h : q'.rangeOf n = q.rangeOf n) :
    q'.comparedRange n = q.comparedRange n := by
  simp only [comparedRange, h]

theorem compareEquivalents_congr {op : CmpOp} {ty : ScalarType} {a b : NameId}
    (as : q'.equivalents a = q.equivalents a) (bs : q'.equivalents b = q.equivalents b)
    (ranges : ∀ n, n ∈ q.equivalents a ∨ n ∈ q.equivalents b → q'.rangeOf n = q.rangeOf n) :
    q'.compareEquivalents op ty a b = q.compareEquivalents op ty a b := by
  simp only [compareEquivalents, as, bs]
  split
  · rfl
  · congr 1
    refine List.map_congr_left fun x hx => ?_
    congr 1
    refine List.foldl_ext _ _ _ fun agreement y hy => ?_
    rw [comparedRange_congr (ranges x (.inl hx)), comparedRange_congr (ranges y (.inr hy))]

theorem compareEquivalentsWithValue_congr {op : CmpOp} {ty : ScalarType} {a : NameId} {value : Int}
    (as : q'.equivalents a = q.equivalents a)
    (ranges : ∀ n ∈ q.equivalents a, q'.rangeOf n = q.rangeOf n) :
    q'.compareEquivalentsWithValue op ty a value = q.compareEquivalentsWithValue op ty a value := by
  simp only [compareEquivalentsWithValue, as]
  congr 1
  refine List.foldl_ext _ _ _ fun agreement y hy => ?_
  rw [comparedRange_congr (ranges y hy)]

theorem decideByEquivalents_congr {op : CmpOp} {ty : ScalarType} {lhs rhs : Operand}
    (ranges : ∀ n, q.EqualsSide lhs rhs n → q'.rangeOf n = q.rangeOf n) :
    q'.decideByEquivalents op ty lhs rhs = q.decideByEquivalents op ty lhs rhs := by
  have equals : ∀ n, lhs = .name n ∨ rhs = .name n → q'.equivalents n = q.equivalents n :=
    fun n side => equivalents_congr (ranges n (.side side))
  cases lhs with
  | name a =>
      cases rhs with
      | name b =>
          refine compareEquivalents_congr (equals a (.inl rfl)) (equals b (.inr rfl)) ?_
          rintro n (hn | hn)
          · exact ranges n ⟨a, .inl rfl, hn⟩
          · exact ranges n ⟨b, .inr rfl, hn⟩
      | const c =>
          exact compareEquivalentsWithValue_congr (equals a (.inl rfl))
            fun n hn => ranges n ⟨a, .inl rfl, hn⟩
  | const c =>
      cases rhs with
      | name b =>
          exact compareEquivalentsWithValue_congr (equals b (.inr rfl))
            fun n hn => ranges n ⟨b, .inr rfl, hn⟩
      | const d => rfl

/-- What is decided without equal names is decided so with them. -/
theorem decideCondition_of_isSome {op : CmpOp} {lhs rhs : Operand} {useEquiv : Bool}
    (h : (q.decideCondition op lhs rhs false).value.isSome = true) :
    q.decideCondition op lhs rhs useEquiv = q.decideCondition op lhs rhs false := by
  have typed : ∀ ty, (q.decideTyped op ty lhs rhs false).value.isSome = true →
      q.decideTyped op ty lhs rhs useEquiv = q.decideTyped op ty lhs rhs false := by
    intro ty h
    unfold decideTyped at h ⊢
    split at h
    · next tracked =>
        have ranges : (q.decideByRanges op ty lhs rhs).value.isSome = true := by
          simpa only [bind, pure, Bool.not_false, Bool.or_true, if_true] using h
        simp only [tracked, if_true, bind, ranges, Bool.true_or]
    · cases h
  cases lhs with
  | name a => exact typed _ h
  | const c =>
      cases rhs with
      | name b => exact typed _ h
      | const d => rfl

theorem decideCondition_equals_congr {op : CmpOp} {lhs rhs : Operand}
    (types : q'.typeOf = q.typeOf)
    (sides : ∀ n, lhs = .name n ∨ rhs = .name n → q'.rangeOf n = q.rangeOf n)
    (equals : ∀ ty, q'.decideByEquivalents op ty lhs rhs = q.decideByEquivalents op ty lhs rhs) :
    q'.decideCondition op lhs rhs true = q.decideCondition op lhs rhs true := by
  have typed : ∀ ty, q'.decideTyped op ty lhs rhs true = q.decideTyped op ty lhs rhs true := by
    intro ty
    simp only [decideTyped, decideByRanges_congr sides, equals]
  cases lhs with
  | name a => simp only [decideCondition, types, typed]
  | const c =>
      cases rhs with
      | name b => simp only [decideCondition, types, typed]
      | const d => rfl

/-- The sides alone settle a comparison: their ranges decide it, they have a common equal, or no
    further name is equal to one of them. -/
def SidesSettle (q : Query) (op : CmpOp) (lhs rhs : Operand) : Prop :=
  (q.decideCondition op lhs rhs false).value.isSome = true ∨
  (∃ a b, lhs = .name a ∧ rhs = .name b ∧
    (q.equivalents a).any (q.equivalents b).contains = true) ∨
  ∀ n, q.EqualsSide lhs rhs n → lhs = .name n ∨ rhs = .name n

/-- A comparison that its sides settle does not depend on other names. -/
theorem SidesSettle.compareResult_eq {op : CmpOp} {lhs rhs : Operand} {ty : ScalarType}
    (h : q.SidesSettle op lhs rhs) (types : q'.typeOf = q.typeOf)
    (sides : ∀ n, lhs = .name n ∨ rhs = .name n → q'.rangeOf n = q.rangeOf n) :
    q'.compareResult op lhs rhs ty = q.compareResult op lhs rhs ty := by
  have same : q'.decideCondition op lhs rhs true = q.decideCondition op lhs rhs true := by
    rcases h with decided | ⟨a, b, rfl, rfl, common⟩ | alone
    · have now : q'.decideCondition op lhs rhs false = q.decideCondition op lhs rhs false :=
        decideCondition_congr types sides
      rw [decideCondition_of_isSome decided, decideCondition_of_isSome (by rw [now]; exact decided),
        now]
    · refine decideCondition_equals_congr types sides fun ty => ?_
      simp only [decideByEquivalents, compareEquivalents, equivalents_congr (sides a (.inl rfl)),
        equivalents_congr (sides b (.inr rfl)), common, if_true]
    · exact decideCondition_equals_congr types sides fun ty =>
        decideByEquivalents_congr fun n hn => sides n (alone n hn)
  simp only [compareResult, same]

/-- The result of a comparison depends on its sides and on the names equal to them. -/
theorem compareResult_congr {op : CmpOp} {lhs rhs : Operand} {ty : ScalarType}
    (types : q'.typeOf = q.typeOf)
    (ranges : ∀ n, q.EqualsSide lhs rhs n → q'.rangeOf n = q.rangeOf n) :
    q'.compareResult op lhs rhs ty = q.compareResult op lhs rhs ty := by
  have same : q'.decideCondition op lhs rhs true = q.decideCondition op lhs rhs true :=
    decideCondition_equals_congr types (fun n side => ranges n (.side side))
      fun _ => decideByEquivalents_congr ranges
  simp only [compareResult, same]

end Query

namespace Engine

/-- In the state the sides of a comparison have the ranges of the table. -/
def SidesAgree (before : EngineState) (table : RangeTable) (lhs rhs : Operand) : Prop :=
  ∀ n, lhs = .name n ∨ rhs = .name n → before.table.rangeOf n = table.rangeOf n

/-- In the state the names that equal a side of a comparison have the ranges of the table. -/
def EqualsAgree (before : EngineState) (table : RangeTable) (lhs rhs : Operand) : Prop :=
  ∀ n, table.query.EqualsSide lhs rhs n → before.table.rangeOf n = table.rangeOf n

/-- At the end of a run a comparison has the result that it has in a state of the run in which its
    sides have the ranges that they have at the end. It is up to date if the sides settle it alone,
    and also if the names that equal a side have their last ranges whenever the sides have theirs:
    then the sides change with every change of a name that the result depends on. -/
theorem run_comparison {f : Function} (hf : f.validate = .ok ()) {config : Config}
    {oracle : EvolutionOracle} {s : EngineState}
    (run : (Engine.ofFunction f config oracle).run = (s, true)) {block : BlockId} {index : Nat}
    {dest : NameId} {op : CmpOp} {lhs rhs : Operand} (executable : s.blockExecutable block = true)
    (hstmt : f.stmtAt? block index = some (.assign dest (.compare op lhs rhs))) :
    ((s.table.rangeOf dest).isVarying = true ∨
      ∃ before ∈ (Engine.ofFunction f config oracle).history,
        SidesAgree before s.table lhs rhs ∧ s.table.rangeOf dest =
          before.table.query.compareResult op lhs rhs (s.table.typeOf dest)) ∧
    ((s.table.query.SidesSettle op lhs rhs ∨
        ∀ before ∈ (Engine.ofFunction f config oracle).history,
          SidesAgree before s.table lhs rhs → EqualsAgree before s.table lhs rhs) →
      (s.table.rangeOf dest).isVarying = true ∨ s.table.rangeOf dest =
        s.table.query.compareResult op lhs rhs (s.table.typeOf dest)) := by
  have valid : (Engine.ofFunction f config oracle).f.Valid := Function.valid_of_validate hf
  obtain ⟨-, -, stable, -⟩ :=
    run_stable (· ∈ (Engine.ofFunction f config oracle).history) valid (fun _ member => member) run
  rcases stable (.stmt block index) executable dest _ hstmt with
    varying | ⟨before, member, names, ranges, stored⟩
  · exact ⟨.inl varying, fun _ => .inl varying⟩
  have sides : SidesAgree before s.table lhs rhs := by
    rintro n (rfl | rfl) <;> exact ranges n (by simp [Rhs.usedNames, Rhs.operands, Operand.name?])
  have types : before.table.query.typeOf = s.table.query.typeOf :=
    funext (RangeTable.typeOf_eq_of_names names)
  refine ⟨.inr ⟨before, member, sides, stored⟩, ?_⟩
  rintro (settled | kept) <;> refine .inr (stored.trans ?_)
  · exact settled.compareResult_eq types sides
  · exact Query.compareResult_congr types (kept before member sides)

end Engine

/-- Compares a number with 0 where the number is known to be at most 10, and is not 0 because it
    equals one that is not. -/
def refined : Function where
  name := "refined"
  names :=
    [ ⟨.int ⟨8, eight_bits⟩ .signed, .param 0 false⟩, ⟨.int ⟨8, eight_bits⟩ .signed, .defined⟩,
      ⟨.int ⟨8, eight_bits⟩ .signed, .defined⟩, ⟨.int ⟨1, one_bit⟩ .unsigned, .defined⟩ ]
  blocks :=
    [ .ofTerminator (.branch ⟨.ne, .name 0, .const 0⟩ 1 3),
      ⟨[], [.assign 1 (.assert 0 (.compare .ne (.const 0)))], .branch ⟨.le, .name 1, .const 10⟩ 2 3,
        [], false⟩,
      ⟨[], [.assign 2 (.assert 1 (.compare .le (.const 10))),
        .assign 3 (.compare .eq (.name 2) (.const 0))], .jump 3, [], false⟩,
      .ofTerminator (.return none) ]

/-- The fixed part for the function, written out. -/
def refinedEngine : Engine where
  f := refined
  config := { useEvolution := false, insertAssertions := false, maxVisits := 100 }
  oracle := .silent
  dominators := ⟨0, #[some [], some [0], some [1, 0], some [0]]⟩
  loops := ⟨4, []⟩
  backEdges := [false, false, false, false, false]

theorem ofFunction_refined :
    Engine.ofFunction refined refinedEngine.config refinedEngine.oracle = refinedEngine := by
  have without : DominatorTree.reachedWithout refined.graph 0 =
      #[#[false, false, false, false], #[true, false, false, true], #[true, true, false, true],
        #[true, true, true, false]] := by
    cbv
  have reached : Graph.mark refined.graph.size (refined.graph.postorder 0) =
      #[true, true, true, true] := by
    cbv
  have tree : refined.dominators = refinedEngine.dominators := by
    rw [Function.dominators, Function.entry,
      DominatorTree.ofGraph_of_stages #[[], [0], [0, 1], [0]] without rfl reached]
    cbv
  have loops : LoopForest.ofGraph refined.graph refinedEngine.dominators = refinedEngine.loops := by
    cbv
  exact refinedEngine.ofFunction_eq tree loops (by decide)

/-- The state in which the propagation comes to its end. -/
def refinedEnd : EngineState where
  table :=
    { names := refined.names
      ranges :=
        [ none, some ⟨.outside (.const 0) (.const 0), .ofList [0]⟩,
          some ⟨.inside (.const (-128)) (.const 10), .ofList [0, 1]⟩, some (.singleton 0) ] }
  executableEdges := [true, true, true, true, true]
  executableBlocks := [true, true, true, true]
  edgeWork := []
  varyingWork := []
  changedWork := []
  queued := [false, false, false, false]
  settled := [.terminator 1, .terminator 0]
  phiEdges := [0, 0, 0, 0]
  visits := 7

theorem refined_run : (Engine.ofFunction refined refinedEngine.config refinedEngine.oracle).run =
    (refinedEnd, true) := by
  rw [ofFunction_refined]
  rfl

/-- The range of `_2` holds 0; that of `_1`, to which it is equal, does not. -/
theorem Engine.run_comparison_refined :
    ¬ refinedEnd.table.query.SidesSettle .eq (.name 2) (.const 0) ∧
    (∀ before ∈ (Engine.ofFunction refined refinedEngine.config refinedEngine.oracle).history,
      SidesAgree before refinedEnd.table (.name 2) (.const 0) →
        EqualsAgree before refinedEnd.table (.name 2) (.const 0)) ∧
    ((refinedEnd.table.rangeOf 3).isVarying = true ∨ refinedEnd.table.rangeOf 3 =
      refinedEnd.table.query.compareResult .eq (.name 2) (.const 0)
        (refinedEnd.table.typeOf 3)) := by
  have equal : ∀ n, refinedEnd.table.query.EqualsSide (.name 2) (.const 0) n ↔
      n = 2 ∨ n = 0 ∨ n = 1 := by
    intro n
    have known : refinedEnd.table.query.equivalents 2 = [2, 0, 1] := by
      decide
    simp [Query.EqualsSide, known]
  have kept : ∀ before ∈ (Engine.ofFunction refined refinedEngine.config
      refinedEngine.oracle).history, SidesAgree before refinedEnd.table (.name 2) (.const 0) →
        EqualsAgree before refinedEnd.table (.name 2) (.const 0) := by
    rw [ofFunction_refined]
    have states : refinedEngine.history.all (fun t =>
        t.table.rangeOf 2 != refinedEnd.table.rangeOf 2 ||
          (t.table.rangeOf 0 == refinedEnd.table.rangeOf 0 &&
            t.table.rangeOf 1 == refinedEnd.table.rangeOf 1)) = true := by
      rfl
    intro before member sides n equals
    have side := sides 2 (.inl rfl)
    have others := List.all_eq_true.mp states before member
    simp only [side, bne_self_eq_false, Bool.false_or, Bool.and_eq_true, beq_iff_eq] at others
    rcases (equal n).mp equals with rfl | rfl | rfl
    · exact side
    · exact others.1
    · exact others.2
  refine ⟨?_, kept, ?_⟩
  · rintro (decided | ⟨a, b, -, constant, -⟩ | alone)
    · exact absurd decided (by decide)
    · cases constant
    · rcases alone 1 ((equal 1).mpr (.inr (.inr rfl))) with left | right
      · exact absurd left (by decide)
      · cases right
  · have stmt : refined.stmtAt? 2 1 = some (.assign 3 (.compare .eq (.name 2) (.const 0))) := rfl
    exact (run_comparison (f := refined) rfl refined_run rfl stmt).2 (.inr kept)

/-- The equality of block 5 is found to fail while `_6` cannot be 0. Later `_6` can be anything, but
    the asserted `_7` does not change with it, and the result stays. -/
theorem Engine.lateMerge_comparison_outdated :
    (Engine.ofFunction lateMerge lateMergeEngine.config lateMergeEngine.oracle).run =
      (lateMergeEnd, true) ∧
    lateMerge.validate = .ok () ∧ lateMergeEnd.blockExecutable 5 = true ∧
    lateMerge.stmtAt? 5 1 = some (.assign 8 (.compare .eq (.name 7) (.const 0))) ∧
    lateMergeEnd.table.rangeOf 8 = .singleton 0 ∧
    lateMergeEnd.table.query.compareResult .eq (.name 7) (.const 0)
      (lateMergeEnd.table.typeOf 8) = .varying :=
  ⟨lateMerge_run, rfl, rfl, rfl, rfl, rfl⟩

theorem lateMerge_usesDominated : lateMerge.UsesDominated :=
  Function.usesDominated_of_above [[], [0], [0, 1], [0, 1, 2], [0, 1, 2], [0, 1, 2, 4], [0]]
    (by decide) (by decide)

/-- One of the first two rounds of the loop. -/
theorem lateMerge_round {env : Env} {k : Int} (early : k = 0 ∨ k = 1)
    (reaches : lateMerge.Reaches lateMergeEngine.config ⟨2, 0, env⟩) (count : env 4 = some k)
    (value : env 3 = some 1) (other : env 1 = some 0) :
    ∃ env', lateMerge.Reaches lateMergeEngine.config ⟨2, 0, env'⟩ ∧ env' 4 = some (k + 1) ∧
      env' 3 = some 1 ∧ env' 1 = some 0 := by
  have next : BinaryOp.add.fold k 1 (.int ⟨8, eight_bits⟩ .signed) = some (k + 1) := by
    rcases early with rfl | rfl <;> rfl
  have stays : CmpOp.gt.eval k 1 = false := by
    rcases early with rfl | rfl <;> rfl
  have counted : lateMerge.Reaches lateMergeEngine.config ⟨2, 1, env.set 5 (k + 1)⟩ :=
    reaches.step (.stmt rfl (.assign ⟨k, 1, count, rfl, fun _ => next⟩))
  have merged : lateMerge.Reaches lateMergeEngine.config ⟨4, 0, _⟩ :=
    counted.step (.edge ⟨_, rfl, rfl, .inl ⟨false, ⟨k, 1, count, rfl, fun _ => stays.symm⟩, rfl⟩⟩
      rfl)
  have low : lateMerge.Reaches lateMergeEngine.config ⟨5, 0, _⟩ :=
    merged.step (.edge ⟨_, rfl, rfl, .inl ⟨true, ⟨1, 10, value, rfl, fun _ => rfl⟩, rfl⟩⟩ rfl)
  have asserted : lateMerge.Reaches lateMergeEngine.config ⟨5, 1, Env.set _ 7 1⟩ :=
    low.step (.stmt rfl (.assign value))
  have compared : lateMerge.Reaches lateMergeEngine.config ⟨5, 2, Env.set _ 8 0⟩ :=
    asserted.step (.stmt rfl (.assign ⟨false, ⟨1, 0, rfl, rfl, fun _ => rfl⟩, fun _ => rfl⟩))
  have again : lateMerge.Reaches lateMergeEngine.config ⟨5, 3, Env.set _ 9 1⟩ :=
    compared.step (.stmt rfl (.assign ⟨true, ⟨1, 20, rfl, rfl, fun _ => rfl⟩, fun _ => rfl⟩))
  have back : lateMerge.Reaches lateMergeEngine.config ⟨2, 0, _⟩ :=
    again.step (.edge ⟨_, rfl, rfl, .inl rfl⟩ rfl)
  exact ⟨_, back, rfl, value, other⟩

/-- With the arguments 1 and 0 the last round finds that 0 equals 0. -/
theorem lateMerge_reaches :
    ∃ env, lateMerge.Reaches lateMergeEngine.config ⟨5, 2, env⟩ ∧ env 8 = some 1 := by
  have start : lateMerge.Initial lateMergeEngine.config ((Env.empty.set 0 1).set 1 0) := by
    intro n
    match n with
    | 0 => exact ⟨1, rfl, fun _ => by decide, fun h => by cases h⟩
    | 1 => exact ⟨0, rfl, fun _ => by decide, fun h => by cases h⟩
    | 2 | 3 | 4 | 5 | 6 | 7 | 8 | 9 => rfl
    | n + 10 => rfl
  have nonzero : lateMerge.Reaches lateMergeEngine.config ⟨1, 0, _⟩ :=
    (Function.Reaches.start start).step
      (.edge ⟨_, rfl, rfl, .inl ⟨true, ⟨1, 0, rfl, rfl, fun _ => rfl⟩, rfl⟩⟩ rfl)
  have asserted : lateMerge.Reaches lateMergeEngine.config ⟨1, 1, Env.set _ 2 1⟩ :=
    nonzero.step (.stmt rfl (.assign rfl))
  have added : lateMerge.Reaches lateMergeEngine.config ⟨1, 2, Env.set _ 3 1⟩ :=
    asserted.step (.stmt rfl (.assign ⟨1, 0, rfl, rfl, fun _ => rfl⟩))
  have loop : lateMerge.Reaches lateMergeEngine.config ⟨2, 0, _⟩ :=
    added.step (.edge ⟨_, rfl, rfl, .inl rfl⟩ rfl)
  obtain ⟨_, once, count, value, other⟩ := lateMerge_round (.inl rfl) loop rfl rfl rfl
  obtain ⟨_, twice, count, value, other⟩ := lateMerge_round (.inr rfl) once count value other
  have counted : lateMerge.Reaches lateMergeEngine.config ⟨2, 1, Env.set _ 5 3⟩ :=
    twice.step (.stmt rfl (.assign ⟨2, 1, count, rfl, fun _ => rfl⟩))
  have late : lateMerge.Reaches lateMergeEngine.config ⟨3, 0, _⟩ :=
    counted.step (.edge ⟨_, rfl, rfl, .inl ⟨true, ⟨2, 1, count, rfl, fun _ => rfl⟩, rfl⟩⟩ rfl)
  have merged : lateMerge.Reaches lateMergeEngine.config ⟨4, 0, _⟩ :=
    late.step (.edge ⟨_, rfl, rfl, .inl rfl⟩ rfl)
  have low : lateMerge.Reaches lateMergeEngine.config ⟨5, 0, _⟩ :=
    merged.step (.edge ⟨_, rfl, rfl, .inl ⟨true, ⟨0, 10, other, rfl, fun _ => rfl⟩, rfl⟩⟩ rfl)
  have again : lateMerge.Reaches lateMergeEngine.config ⟨5, 1, Env.set _ 7 0⟩ :=
    low.step (.stmt rfl (.assign other))
  have equal : lateMerge.Reaches lateMergeEngine.config ⟨5, 2, Env.set _ 8 1⟩ :=
    again.step (.stmt rfl (.assign ⟨true, ⟨0, 0, rfl, rfl, fun _ => rfl⟩, fun _ => rfl⟩))
  exact ⟨_, equal, rfl⟩

end RangeFlow
