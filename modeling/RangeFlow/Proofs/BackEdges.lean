import RangeFlow.Proofs.Execution
import RangeFlow.Proofs.Fixpoint
import RangeFlow.Proofs.Loops

/-! # Cycles and back edges

A walk along edges that comes back to its start goes round a cycle of the blocks. Where one block
of the cycle dominates the others, the edge of the walk into this block is a back edge, and what is
known in terms of names does not pass it. A cycle that control can enter at two of its blocks has no
such block: none of its edges is a back edge, and a merge can be known in terms of a name whose
value has changed since.
-/

namespace RangeFlow

namespace Function

variable {f : Function} {a b c : BlockId} {id : EdgeId} {ids : List EdgeId} {e : Edge}

/-- A walk from one block to another, with the edges taken. -/
inductive Walk (f : Function) : BlockId → List EdgeId → BlockId → Prop where
  | stay (b : BlockId) : Walk f b [] b
  | step {id : EdgeId} {e : Edge} {ids : List EdgeId} {c : BlockId} (edge : f.edge? id = some e)
      (rest : Walk f e.dst ids c) : Walk f e.src (id :: ids) c

/-- The blocks that a walk along these edges leaves. -/
def sources (f : Function) (ids : List EdgeId) : List BlockId :=
  ids.filterMap fun id => (f.edge? id).map Edge.src

/-- One of the blocks that a walk along these edges leaves dominates all of them. -/
def Headed (f : Function) (ids : List EdgeId) : Prop :=
  ∃ h ∈ f.sources ids, ∀ d ∈ f.sources ids, f.OnEveryPath h d

@[simp] theorem sources_nil : f.sources [] = [] := rfl

theorem sources_cons (edge : f.edge? id = some e) :
    f.sources (id :: ids) = e.src :: f.sources ids := by
  simp [sources, edge]

theorem sources_append (before after : List EdgeId) :
    f.sources (before ++ after) = f.sources before ++ f.sources after := by
  simp [sources]

theorem mem_sources : b ∈ f.sources ids ↔ ∃ id ∈ ids, ∃ e, f.edge? id = some e ∧ e.src = b := by
  simp [sources]

namespace Walk

theorem append (first : f.Walk a ids b) {others : List EdgeId} (second : f.Walk b others c) :
    f.Walk a (ids ++ others) c := by
  induction first with
  | stay => exact second
  | step edge _ ih => exact .step edge (ih second)

theorem of_append {before after : List EdgeId} (walk : f.Walk a (before ++ after) c) :
    ∃ b, f.Walk a before b ∧ f.Walk b after c := by
  induction before generalizing a with
  | nil => exact ⟨a, .stay a, walk⟩
  | cons id before ih =>
      cases walk with
      | step edge rest =>
          obtain ⟨b, first, second⟩ := ih rest
          exact ⟨b, .step edge first, second⟩

/-- The edges of a walk lead to the blocks that it leaves later and to its end. -/
theorem enters (walk : f.Walk a ids c) (other : b ≠ a) (h : b ∈ f.sources ids ∨ b = c) :
    ∃ id ∈ ids, ∃ e, f.edge? id = some e ∧ e.dst = b := by
  induction walk with
  | stay => simp_all
  | @step id e ids c edge rest ih =>
      by_cases here : b = e.dst
      · exact ⟨id, List.mem_cons_self, e, edge, here.symm⟩
      · have later : b ∈ f.sources ids ∨ b = c := by
          rw [sources_cons edge, List.mem_cons] at h
          tauto
        obtain ⟨id', member, found⟩ := ih here later
        exact ⟨id', List.mem_cons_of_mem id member, found⟩

theorem reachable_source (walk : f.Walk a ids c) (start : f.Reachable a)
    (h : b ∈ f.sources ids) : f.Reachable b := by
  induction walk with
  | stay => cases h
  | step edge _ ih =>
      rw [sources_cons edge] at h
      rcases List.mem_cons.mp h with rfl | later
      · exact start
      · obtain ⟨passed, path⟩ := start
        exact ih ⟨_, path.step_feeds (feeds_of_edge? edge)⟩ later

theorem start_mem_sources (walk : f.Walk a ids c) (moves : ids ≠ []) : a ∈ f.sources ids := by
  cases walk with
  | stay => exact absurd rfl moves
  | step edge _ => simp [sources_cons edge]

/-- A path goes on along a walk, without passing other blocks than those of the walk. -/
theorem extend_path (walk : f.Walk a ids c) {passed : List BlockId} (path : f.Path a passed)
    {avoided : BlockId} (free : avoided ∉ passed) (aside : avoided ∉ f.sources ids) :
    ∃ longer, f.Path c longer ∧ avoided ∉ longer := by
  induction walk generalizing passed with
  | stay => exact ⟨passed, path, free⟩
  | step edge _ ih =>
      rw [sources_cons edge, List.mem_cons, not_or] at aside
      refine ih (path.step_feeds (feeds_of_edge? edge)) ?_ aside.2
      simpa using ⟨aside.1, free⟩

/-- A walk that comes back has an edge into each of its blocks. -/
theorem closed_enters (walk : f.Walk a ids a) (h : b ∈ f.sources ids) :
    ∃ id ∈ ids, ∃ e, f.edge? id = some e ∧ e.dst = b := by
  cases walk with
  | stay => cases h
  | @step id e ids _ edge rest =>
      by_cases here : b = e.dst
      · exact ⟨id, List.mem_cons_self, e, edge, here.symm⟩
      · have later : b ∈ f.sources ids ∨ b = e.src := by
          rw [sources_cons edge, List.mem_cons] at h
          exact h.symm
        obtain ⟨id', member, found⟩ := rest.enters here later
        exact ⟨id', List.mem_cons_of_mem id member, found⟩

/-- A walk that comes back can be started behind any of its edges. -/
theorem rotate (walk : f.Walk a ids a) (member : id ∈ ids) (edge : f.edge? id = some e) :
    ∃ others, f.Walk e.dst others e.src ∧ (others ++ [id]).Perm ids := by
  obtain ⟨before, after, rfl⟩ := List.append_of_mem member
  obtain ⟨b, first, second⟩ := walk.of_append
  cases second with
  | step same rest =>
      cases edge.symm.trans same
      refine ⟨after ++ before, rest.append first, ?_⟩
      have rotated : (after ++ (before ++ [id])).Perm ((before ++ [id]) ++ after) :=
        List.perm_append_comm
      simpa using rotated

/-- A walk can be cut at a block that it leaves. -/
theorem cut (walk : f.Walk a ids c) (h : b ∈ f.sources ids) :
    ∃ before after, ids = before ++ after ∧ f.Walk b after c ∧ (b = a ∨ a ∈ f.sources before) := by
  induction walk with
  | stay => cases h
  | @step id e ids c edge rest ih =>
      by_cases here : b = e.src
      · subst here
        exact ⟨[], id :: ids, rfl, .step edge rest, .inl rfl⟩
      · rw [sources_cons edge, List.mem_cons] at h
        obtain ⟨before, after, rfl, tail, -⟩ := ih (h.resolve_left here)
        refine ⟨id :: before, after, rfl, tail, .inr ?_⟩
        simp [sources_cons edge]

end Walk

end Function

namespace Engine

variable {f : Function} {config : Config} {oracle : EvolutionOracle} {b : BlockId} {id : EdgeId}
  {ids : List EdgeId}

theorem isBackEdge_iff : (Engine.ofFunction f config oracle).isBackEdge id = true ↔
    ∃ e, f.edge? id = some e ∧ f.dominators.dominates e.dst e.src = true := by
  cases edge : f.edge? id with
  | none =>
      have absent : f.edges[id]? = none := edge
      simp [isBackEdge, Engine.ofFunction, backEdgesOf, absent]
  | some e =>
      have found : f.edges[id]? = some e := edge
      simp [isBackEdge, Engine.ofFunction, backEdgesOf, found]

/-- What an operand contributes over the edge is not known in terms of names. -/
def Forgets (en : Engine) (edge : EdgeId) : Prop :=
  ∀ s o, (en.phiContribution s edge o).isSymbolic = false ∧
    ((en.phiContribution s edge o).isBounded = true → (en.phiContribution s edge o).equiv = ∅)

theorem forgets_of_isBackEdge {en : Engine} (back : en.isBackEdge id = true) : en.Forgets id := by
  intro s o
  cases o with
  | const c => exact ⟨rfl, fun _ => rfl⟩
  | name n =>
      simp only [phiContribution, back, if_true]
      split
      · exact ⟨rfl, fun _ => rfl⟩
      · next concrete =>
          unfold ValueRange.withEquiv
          split
          · exact ⟨Bool.eq_false_iff.mpr concrete, fun _ => rfl⟩
          · next unbounded =>
              exact ⟨Bool.eq_false_iff.mpr concrete, fun bounded => absurd bounded unbounded⟩

/-- In a walk that comes back, an edge into a block that dominates all others is a back edge. -/
theorem exists_isBackEdge (hf : f.Valid) (reached : f.Reachable b) (walk : f.Walk b ids b)
    (headed : f.Headed ids) :
    ∃ id ∈ ids, (Engine.ofFunction f config oracle).isBackEdge id = true := by
  obtain ⟨h, member, above⟩ := headed
  obtain ⟨id, hid, e, edge, rfl⟩ := walk.closed_enters member
  have source : e.src ∈ f.sources ids := Function.mem_sources.mpr ⟨id, hid, e, edge, rfl⟩
  have dominates := hf.dominates_of_onEveryPath (walk.reachable_source reached source)
    (above e.src source)
  exact ⟨id, hid, isBackEdge_iff.mpr ⟨e, edge, dominates⟩⟩

/-- The target of a back edge dominates every block of a cycle through it. -/
theorem headed_of_isBackEdge (hf : f.Valid) (walk : f.Walk b ids b) (simple : (f.sources ids).Nodup)
    (member : id ∈ ids) (back : (Engine.ofFunction f config oracle).isBackEdge id = true) :
    f.Headed ids := by
  obtain ⟨e, edge, dominates⟩ := isBackEdge_iff.mp back
  obtain ⟨others, around, perm⟩ := walk.rotate member edge
  have blocks : (f.sources others ++ [e.src]).Perm (f.sources ids) := by
    simpa [Function.sources, edge] using perm.filterMap fun id => (f.edge? id).map Edge.src
  have distinct := blocks.nodup_iff.mpr simple
  have above : f.OnEveryPath e.dst e.src := hf.dominates_onEveryPath dominates
  refine ⟨e.dst, blocks.subset ?_, fun d hd passed path => ?_⟩
  · have closed : f.Walk e.dst (others ++ [id]) e.dst := around.append (.step edge (.stay e.dst))
    simpa [Function.sources, edge] using closed.start_mem_sources (by simp)
  · rcases List.mem_append.mp (blocks.symm.subset hd) with left | last
    · -- a path to `d` around the target would go on to the source of the back edge
      obtain ⟨before, after, rfl, rest, start⟩ := around.cut left
      rcases start with same | earlier
      · exact .inl same.symm
      · by_contra around
        obtain ⟨-, free⟩ := not_or.mp around
        rw [Function.sources_append, List.append_assoc] at distinct
        have later := (List.nodup_append.mp distinct).2.2 e.dst earlier
        obtain ⟨longer, path, avoids⟩ := rest.extend_path path free fun again =>
          later e.dst (List.mem_append_left _ again) rfl
        rcases above longer path with same | passes
        · exact later e.src (by simp) same
        · exact avoids passes
    · rw [List.mem_singleton.mp last] at path ⊢
      exact above passed path

/-- A walk that comes back has a back edge, which what is known in terms of names does not pass, if
    one of its blocks dominates all of them. A cycle has a back edge only if that is so. -/
theorem closedWalk_forgets (hf : f.validate = .ok ()) (reached : f.Reachable b)
    (walk : f.Walk b ids b) :
    (f.Headed ids → ∃ id ∈ ids, (Engine.ofFunction f config oracle).isBackEdge id = true ∧
      (Engine.ofFunction f config oracle).Forgets id) ∧
    ((f.sources ids).Nodup →
      (∃ id ∈ ids, (Engine.ofFunction f config oracle).isBackEdge id = true) → f.Headed ids) := by
  have valid := Function.valid_of_validate hf
  constructor
  · intro headed
    obtain ⟨id, member, back⟩ := exists_isBackEdge valid reached walk headed
    exact ⟨id, member, back, forgets_of_isBackEdge back⟩
  · rintro simple ⟨id, member, back⟩
    exact headed_of_isBackEdge valid walk simple member back

theorem closedWalk_forgets_lateMerge :
    ∃ id ∈ [4, 6, 8], (Engine.ofFunction lateMerge lateMergeEngine.config
        lateMergeEngine.oracle).isBackEdge id = true ∧
      (Engine.ofFunction lateMerge lateMergeEngine.config lateMergeEngine.oracle).Forgets id := by
  have valid : lateMerge.Valid := Function.valid_of_validate rfl
  have walk : lateMerge.Walk 2 [4, 6, 8] 2 :=
    .step (e := ⟨2, 4, { onFalse := true }⟩) rfl (.step (e := ⟨4, 5, { onTrue := true }⟩) rfl
      (.step (e := ⟨5, 2, {}⟩) rfl (.stay 2)))
  have reached : lateMerge.Reachable 2 :=
    ⟨[1, 0], .step (b := lateMerge.blocks[1])
      (.step (b := lateMerge.blocks[0]) .entry rfl (by decide)) rfl (by decide)⟩
  have headed : lateMerge.Headed [4, 6, 8] := by
    refine ⟨2, by decide, fun d hd => valid.dominates_onEveryPath ?_⟩
    rw [lateMerge_dominators]
    have block : d = 2 ∨ d = 4 ∨ d = 5 := by
      have sources : lateMerge.sources [4, 6, 8] = [2, 4, 5] := rfl
      simpa [sources] using hd
    rcases block with rfl | rfl | rfl <;> rfl
  exact (closedWalk_forgets rfl reached walk).1 headed

end Engine

/-- Control can enter the cycle of the blocks 1 and 2 at either of them. The merge `_2` tells the
    first round from the second, and `_3` takes the value that `_4` had in the round before. They
    are compared behind the second round. -/
def twoEntries : Function where
  name := "twoEntries"
  names :=
    [ ⟨.int ⟨8, eight_bits⟩ .signed, .param 0 false⟩, ⟨.int ⟨8, eight_bits⟩ .signed, .uninit⟩,
      ⟨.int ⟨8, eight_bits⟩ .signed, .defined⟩, ⟨.int ⟨8, eight_bits⟩ .signed, .defined⟩,
      ⟨.int ⟨8, eight_bits⟩ .signed, .defined⟩, ⟨.int ⟨8, eight_bits⟩ .signed, .defined⟩,
      ⟨.int ⟨8, eight_bits⟩ .signed, .defined⟩ ]
  blocks :=
    [ .ofTerminator (.branch ⟨.lt, .name 0, .const 0⟩ 1 2),
      ⟨[⟨2, [⟨0, .const 0⟩, ⟨2, .const 1⟩]⟩, ⟨3, [⟨0, .name 1⟩, ⟨2, .name 5⟩]⟩],
        [.assign 4 (.call [] false)], .branch ⟨.eq, .name 2, .const 0⟩ 2 3, [], false⟩,
      ⟨[⟨5, [⟨0, .name 1⟩, ⟨1, .name 4⟩]⟩], [], .jump 1, [], false⟩,
      ⟨[], [.assign 6 (.compare .eq (.name 3) (.name 4))], .return (some (.name 6)), [], false⟩ ]

/-- The fixed part for the function, written out. -/
def twoEntriesEngine : Engine where
  f := twoEntries
  config := { useEvolution := false, insertAssertions := false, maxVisits := 100 }
  oracle := .induction true
  dominators := ⟨0, #[some [], some [0], some [0], some [1, 0]]⟩
  loops := .empty 4
  backEdges := [false, false, false, false, false]

theorem ofFunction_twoEntries :
    Engine.ofFunction twoEntries twoEntriesEngine.config twoEntriesEngine.oracle =
      twoEntriesEngine := by
  have without : DominatorTree.reachedWithout twoEntries.graph 0 =
      #[#[false, false, false, false], #[true, false, true, false], #[true, true, false, true],
        #[true, true, true, false]] := by
    cbv
  have reached : Graph.mark twoEntries.graph.size (twoEntries.graph.postorder 0) =
      #[true, true, true, true] := by
    cbv
  have tree : twoEntries.dominators = twoEntriesEngine.dominators := by
    rw [Function.dominators, Function.entry,
      DominatorTree.ofGraph_of_stages #[[], [0], [0], [0, 1]] without rfl reached]
    cbv
  have loops : LoopForest.ofGraph twoEntries.graph twoEntriesEngine.dominators =
      twoEntriesEngine.loops := by
    cbv
  exact twoEntriesEngine.ofFunction_eq tree loops (by decide)

/-- The state in which the propagation comes to its end. -/
def twoEntriesEnd : EngineState where
  table :=
    { names := twoEntries.names
      ranges :=
        [ none, none, some (.range (.const 0) (.const 1)), some (.sameAs 4),
          some .varying, some (.sameAs 4), some (.singleton 1) ] }
  executableEdges := [true, true, true, true, true]
  executableBlocks := [true, true, true, true]
  edgeWork := []
  varyingWork := []
  changedWork := []
  queued := [false, false, false, false, false, false, false]
  settled := [.terminator 3, .terminator 1, .stmt 1 0, .terminator 0]
  phiEdges := [0, 0, 2, 2, 0, 2, 0]
  visits := 15

theorem twoEntries_run : (Engine.ofFunction twoEntries twoEntriesEngine.config
    twoEntriesEngine.oracle).run = (twoEntriesEnd, true) := by
  rw [ofFunction_twoEntries]
  rfl

/-- When calls give 5 and then 7, the value of the round before is another one. -/
theorem twoEntries_reaches : ∃ env, twoEntries.Reaches twoEntriesEngine.config ⟨3, 1, env⟩ ∧
    env 3 = some 5 ∧ env 4 = some 7 ∧ env 6 = some 0 := by
  have start : twoEntries.Initial twoEntriesEngine.config (Env.empty.set 0 (-1)) := by
    intro n
    rcases n with _ | _ | _ | _ | _ | _ | _ | n
    · exact ⟨-1, rfl, fun _ => by decide, fun h => by cases h⟩
    all_goals rfl
  have entered : twoEntries.Reaches twoEntriesEngine.config ⟨1, 0, _⟩ :=
    (Function.Reaches.start start).step
      (.edge ⟨_, rfl, rfl, .inl ⟨true, ⟨-1, 0, rfl, rfl, fun _ => rfl⟩, rfl⟩⟩ rfl)
  have first : twoEntries.Reaches twoEntriesEngine.config ⟨1, 1, Env.set _ 4 5⟩ :=
    entered.step (.stmt rfl (.assign ⟨by simp, fun _ => by decide, by simp⟩))
  have around : twoEntries.Reaches twoEntriesEngine.config ⟨2, 0, _⟩ :=
    first.step (.edge ⟨_, rfl, rfl, .inl ⟨true, ⟨0, 0, rfl, rfl, fun _ => rfl⟩, rfl⟩⟩ rfl)
  have back : twoEntries.Reaches twoEntriesEngine.config ⟨1, 0, _⟩ :=
    around.step (.edge ⟨_, rfl, rfl, .inl rfl⟩ rfl)
  have second : twoEntries.Reaches twoEntriesEngine.config ⟨1, 1, Env.set _ 4 7⟩ :=
    back.step (.stmt rfl (.assign ⟨by simp, fun _ => by decide, by simp⟩))
  have behind : twoEntries.Reaches twoEntriesEngine.config ⟨3, 0, _⟩ :=
    second.step (.edge ⟨_, rfl, rfl, .inl ⟨false, ⟨1, 0, rfl, rfl, fun _ => rfl⟩, rfl⟩⟩ rfl)
  have compared : twoEntries.Reaches twoEntriesEngine.config ⟨3, 1, Env.set _ 6 0⟩ :=
    behind.step (.stmt rfl (.assign ⟨false, ⟨5, 7, rfl, rfl, fun _ => rfl⟩, fun _ => rfl⟩))
  exact ⟨_, compared, rfl, rfl, rfl⟩

/-- On a cycle with two entries the value of the round before is known by the name that has been set
    again since. The comparison with that name is decided, and an execution gives it the other
    value. -/
theorem Engine.closedWalk_remembers_twoEntries :
    twoEntries.validate = .ok () ∧ twoEntries.Reachable 1 ∧ twoEntries.Walk 1 [2, 4] 1 ∧
    (∀ id ∈ [2, 4], (Engine.ofFunction twoEntries twoEntriesEngine.config
      twoEntriesEngine.oracle).isBackEdge id = false) ∧
    ∃ s env, (Engine.ofFunction twoEntries twoEntriesEngine.config twoEntriesEngine.oracle).run =
        (s, true) ∧
      s.table.rangeOf 3 = .sameAs 4 ∧ s.table.rangeOf 6 = .singleton 1 ∧
      twoEntries.Reaches twoEntriesEngine.config ⟨3, 1, env⟩ ∧ env 6 = some 0 := by
  obtain ⟨env, reaches, -, -, other⟩ := twoEntries_reaches
  refine ⟨rfl, ?_, ?_, ?_, twoEntriesEnd, env, twoEntries_run, rfl, rfl, reaches, other⟩
  · exact ⟨[0], .step (b := twoEntries.blocks[0]) .entry rfl (by decide)⟩
  · exact .step (e := ⟨1, 2, { onTrue := true }⟩) rfl (.step (e := ⟨2, 1, {}⟩) rfl (.stay 1))
  · rw [ofFunction_twoEntries]
    decide

end RangeFlow
