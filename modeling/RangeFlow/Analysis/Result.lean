import RangeFlow.Analysis.Engine
import RangeFlow.Assertion.Insert
import RangeFlow.Assertion.Strip
import RangeFlow.Program.Validate

/-! # The analysis and its results

The analysis of a function inserts assertions, propagates ranges, and takes the assertions out
again. Blocks that were put on edges stay.
-/

namespace RangeFlow

/-- What the analysis has found out about a function. -/
structure RangeResult where
  /-- The name of the function. -/
  function : String
  /-- The ranges of all names, those of assertions among them. -/
  ranges : List ValueRange
  executableEdges : List Bool
  executableBlocks : List Bool
  /-- Blocks that choose between others and always choose the same, with the one they choose. -/
  outcomes : List (BlockId × BlockId)
  assertions : List AssertionRecord
  visits : Nat
  /-- Did the analysis come to an end by itself? -/
  converged : Bool
  deriving Repr, DecidableEq

namespace RangeResult

/-- The block that always follows a block that can be entered and that chooses between others. -/
def outcomeOf? (f : Function) (s : EngineState) (block : BlockId) (b : Block) : Option BlockId :=
  if s.blockExecutable block && Engine.isConditional b.terminator then
    let normal := f.edgesWhere fun e => e.src == block && !e.isAbnormal
    match normal.filter s.edgeExecutable with
    | [taken] => if 1 < normal.length then (f.edge? taken).map Edge.dst else none
    | _ => none
  else none

/-- Collect what a propagation has found out. -/
def harvest (f : Function) (s : EngineState) (converged : Bool)
    (assertions : List AssertionRecord) : RangeResult where
  function := f.name
  ranges := s.table.toList
  executableEdges := s.executableEdges
  executableBlocks := s.executableBlocks
  outcomes := f.blocks.zipIdx.filterMap fun (b, id) => (outcomeOf? f s id b).map (id, ·)
  assertions
  visits := s.visits
  converged

/-- The range of a name. -/
def range? (r : RangeResult) (name : NameId) : Option ValueRange := r.ranges[name]?

/-- The constant that a name always is. -/
def constant? (r : RangeResult) (name : NameId) : Option Int := (r.range? name).bind (·.single?)

/-- Can the edge be taken? -/
def isEdgeExecutable (r : RangeResult) (edge : EdgeId) : Bool :=
  (r.executableEdges[edge]?).getD false

/-- Can the block be entered? -/
def isBlockExecutable (r : RangeResult) (block : BlockId) : Bool :=
  (r.executableBlocks[block]?).getD false

/-- Number of blocks that can be entered. -/
def executableBlockCount (r : RangeResult) : Nat := r.executableBlocks.countP id

/-- The block that always follows. -/
def branchOutcome? (r : RangeResult) (block : BlockId) : Option BlockId := r.outcomes.lookup block

/-- The assertions about a name, with the ranges they give it. -/
def refinements (r : RangeResult) (subject : NameId) : List (AssertionRecord × ValueRange) :=
  (r.assertions.filter (·.subject == subject)).filterMap fun record =>
    (r.range? record.derived).map (record, ·)

/-- The range that the last assertion in a block gives a name. -/
def rangeInBlock? (r : RangeResult) (subject : NameId) (block : BlockId) : Option ValueRange :=
  (((r.refinements subject).filter (·.1.block == block)).getLast?).map Prod.snd

/-- Does some range rest on overflow being undefined? -/
def usedStrictOverflow (r : RangeResult) : Bool := r.ranges.any ValueRange.usesInfinity

end RangeResult

/-- The analysis: a configuration and a source of evolutions. -/
structure Pass where
  config : Config
  oracle : EvolutionOracle

namespace Pass

/-- The analysis that reads evolutions off definitions. -/
def ofConfig (config : Config) : Pass := ⟨config, .induction config.strictOverflow⟩

/-- The function that ranges are propagated through. -/
def prepare (pass : Pass) (f : Function) : Function × List AssertionRecord :=
  if pass.config.insertAssertions then f.insertAssertions pass.config else (f, [])

/-- Analyse a function. The function it gives back has blocks on the edges that were split and
    names for the assertions, but no assertions. -/
def run (pass : Pass) (f : Function) : Except Error (Function × RangeResult) := do
  f.validate
  let (g, assertions) := pass.prepare f
  let (s, converged) := (Engine.ofFunction g pass.config pass.oracle).run
  return (g.stripAssertions.1, .harvest g s converged assertions)

end Pass

end RangeFlow
