import RangeFlow.Analysis.Widening

/-! # Propagation

Ranges are propagated from the entry block along edges that can be taken and from definitions to
uses, until nothing changes. Edges come first, then names that may now hold any value, then names
whose range has changed.
-/

namespace RangeFlow

/-- A place that is visited. -/
inductive Site where
  | phi (block : BlockId) (index : Nat)
  | stmt (block : BlockId) (index : Nat)
  | terminator (block : BlockId)
  deriving Repr, DecidableEq

namespace Site

/-- The block of the place. -/
def block : Site → BlockId
  | phi block _ => block
  | stmt block _ => block
  | terminator block => block

/-- The place of a use. -/
def ofUse : UseSite → Site
  | .phi block index _ => phi block index
  | .stmt block index => stmt block index
  | .terminator block => terminator block

end Site

/-- What a visit brings. -/
inductive Status where
  /-- Nothing has changed. -/
  | unchanged
  /-- The range of the name has changed, or an edge has been found. -/
  | changed
  /-- Nothing more can be learned here. -/
  | varying
  deriving Repr, DecidableEq

/-- What stays fixed while ranges are propagated. -/
structure Engine where
  f : Function
  config : Config
  oracle : EvolutionOracle
  dominators : DominatorTree
  loops : LoopForest
  /-- Per edge: does its target dominate its source? -/
  backEdges : List Bool

/-- The state of a propagation. -/
structure EngineState where
  table : RangeTable
  executableEdges : List Bool
  executableBlocks : List Bool
  /-- Edges that have been found to be taken, and whose targets wait for a visit. -/
  edgeWork : List EdgeId
  /-- Names that may hold any value, and whose uses wait for a visit. -/
  varyingWork : List NameId
  /-- Names with a changed range, and whose uses wait for a visit. -/
  changedWork : List NameId
  /-- Per name: does it wait? -/
  queued : List Bool
  /-- Places that need no further visit. -/
  settled : List Site
  /-- Per name: from how many edges its merge has last been computed. -/
  phiEdges : List Nat
  visits : Nat
  deriving Repr, DecidableEq

namespace Engine

/-- Per edge: does its target dominate its source? -/
def backEdgesOf (f : Function) (t : DominatorTree) : List Bool :=
  f.edges.map fun e => t.dominates e.dst e.src

/-- The fixed part for a function. -/
def ofFunction (f : Function) (config : Config) (oracle : EvolutionOracle) : Engine :=
  let dominators := f.dominators
  { f
    config
    oracle
    dominators
    loops := .ofGraph f.graph dominators
    backEdges := backEdgesOf f dominators }

/-- The evolution of a name merged at the head of the loop of a block. -/
def evolutionAt? (en : Engine) (block : BlockId) (name : NameId) : Option Evolution :=
  (en.loops.forHeader? block).bind fun l => en.oracle en.f en.dominators l name

/-- Is the edge a back edge? -/
def isBackEdge (en : Engine) (edge : EdgeId) : Bool := (en.backEdges[edge]?).getD false

end Engine

namespace EngineState

/-- Can the edge be taken? -/
def edgeExecutable (s : EngineState) (edge : EdgeId) : Bool :=
  (s.executableEdges[edge]?).getD false

/-- Can the block be entered? -/
def blockExecutable (s : EngineState) (block : BlockId) : Bool :=
  (s.executableBlocks[block]?).getD false

/-- Note that an edge can be taken. -/
def addEdge (s : EngineState) (edge : EdgeId) : EngineState :=
  if edge < s.executableEdges.length ∧ !s.edgeExecutable edge then
    { s with
      executableEdges := s.executableEdges.set edge true
      edgeWork := s.edgeWork ++ [edge] }
  else s

/-- Let the uses of a name wait for a visit, unless they do so already. -/
def queueName (s : EngineState) (name : NameId) (varying : Bool) : EngineState :=
  if (s.queued[name]?).getD true then s
  else
    let s := { s with queued := s.queued.set name true }
    if varying then { s with varyingWork := s.varyingWork ++ [name] }
    else { s with changedWork := s.changedWork ++ [name] }

/-- Note that a place needs no further visit. -/
def settle (s : EngineState) (site : Site) : EngineState :=
  { s with settled := site :: s.settled }

/-- Store a range for a name. -/
def store (s : EngineState) (name : NameId) (vr : ValueRange) : EngineState × Status :=
  let (table, changed) := s.table.update name vr
  let status :=
    if !changed then .unchanged
    else if (table.rangeOf name).isVarying then .varying
    else .changed
  ({ s with table }, status)

end EngineState

namespace Engine

/-- The state before the first visit. -/
def start (en : Engine) : EngineState where
  table := .ofFunction en.f en.config
  executableEdges := List.replicate en.f.edges.length false
  executableBlocks := List.replicate en.f.blockCount false
  edgeWork := []
  varyingWork := []
  changedWork := []
  queued := List.replicate en.f.nameCount false
  settled := []
  phiEdges := List.replicate en.f.nameCount 0
  visits := 0

/-- Is a statement one that visits can learn something from? -/
def isInteresting (table : RangeTable) : Stmt → Bool
  | .assign _ (.load _) => false
  | .assign dest _ => (table.typeOf dest).isTracked
  | .store _ _ => false
  | .nop => false

/-- Settle a merge of a type that is not followed. -/
def presettlePhi (s : EngineState) (site : Site) (phi : Phi) : EngineState :=
  if (s.table.typeOf phi.dest).isTracked then s
  else (s.store phi.dest .varying).1.settle site

/-- Settle a statement that visits can learn nothing from. -/
def presettleStmt (s : EngineState) (site : Site) (stmt : Stmt) : EngineState :=
  if isInteresting s.table stmt then s
  else
    let s :=
      match stmt.dest? with
      | some dest => (s.store dest .varying).1
      | none => s
    s.settle site

/-- Settle what visits can learn nothing from. -/
def presettle (en : Engine) (s : EngineState) : EngineState :=
  en.f.blocks.zipIdx.foldl (fun s (b, id) =>
    let s := b.phis.zipIdx.foldl (fun s (phi, i) => presettlePhi s (.phi id i) phi) s
    b.stmts.zipIdx.foldl (fun s (stmt, i) => presettleStmt s (.stmt id i) stmt) s) s

/-- What an operand of a merge contributes over an edge. What is known in terms of names may refer
    to the iteration before, so it does not pass back edges. -/
def phiContribution (en : Engine) (s : EngineState) (edge : EdgeId) : Operand → ValueRange
  | .const c => .singleton c
  | .name name =>
      let vr := s.table.rangeOf name
      if en.isBackEdge edge then
        if vr.isSymbolic then .varying else vr.withEquiv ∅
      else if vr.isVarying then .sameAs name
      else vr

/-- What the operands of a merge contribute over the edges that can be taken. -/
def phiContributions (en : Engine) (s : EngineState) (block : BlockId) (phi : Phi) :
    List ValueRange :=
  phi.operands.filterMap fun o =>
    match en.f.findEdge? o.predecessor block with
    | some edge => if s.edgeExecutable edge then some (en.phiContribution s edge o.value) else none
    | none => none

/-- The range narrowed by the evolution of the name, if its loop has one. -/
def narrow (en : Engine) (s : EngineState) (block : BlockId) (dest : NameId) (ty : ScalarType)
    (vr : ValueRange) : ValueRange :=
  if en.config.useEvolution then
    match en.evolutionAt? block dest with
    | some ev => s.table.query.narrow ty ev vr
    | none => vr
  else vr

/-- May the name leave its type in the loop? -/
def mayOverflow (en : Engine) (block : BlockId) (dest : NameId) : Bool :=
  !(en.config.useEvolution && (en.evolutionAt? block dest).any Evolution.noWrap)

/-- Does the range have the least and the greatest value of the type as its ends? -/
def spansType (ty : ScalarType) (vr : ValueRange) : Bool := vr.min.isMin ty && vr.max.isMax ty

/-- The range of a merge that is computed again from as many edges as before: ends that have moved
    are pushed outwards. There is none if nothing is left to know. -/
def widen? (en : Engine) (s : EngineState) (block : BlockId) (dest : NameId) (ty : ScalarType)
    (old new : ValueRange) : Option ValueRange :=
  let minMoved := Bound.compare ty old.min new.min != .equal
  let maxMoved := Bound.compare ty old.max new.max != .equal
  if old.isVarying then none
  else if !minMoved && !maxMoved then some new
  else if old.isAnti && new.isAnti && !ty.isPointer then new.widenAnti? ty minMoved maxMoved
  else if !old.isRange || !new.isRange || ty.isPointer then none
  else
    let overflow := ty.overflowUndefined && en.mayOverflow block dest
    let widened := en.narrow s block dest ty (new.pushEnds ty overflow minMoved maxMoved)
    if spansType ty widened || Bound.compare ty widened.min widened.max == .greater then none
    else some widened

/-- Give up on a merge, except for what its evolution tells. -/
def giveUpPhi (en : Engine) (s : EngineState) (block : BlockId) (dest : NameId)
    (ty : ScalarType) : EngineState × Status :=
  let vr := en.narrow s block dest ty .varying
  if vr.isVarying || spansType ty vr then ((s.store dest .varying).1, .varying)
  else s.store dest vr

/-- Compute a merge from the operands whose edges can be taken. -/
def visitPhi (en : Engine) (s : EngineState) (block : BlockId) (phi : Phi) :
    EngineState × Status :=
  let dest := phi.dest
  let ty := s.table.typeOf dest
  let contributions := en.phiContributions s block phi
  let new := contributions.foldl (ValueRange.meet ty) .undefined
  if new.isVarying then en.giveUpPhi s block dest ty
  else if new.isUndefined then s.store dest new
  else
    let edges := contributions.length
    let again := decide (0 < edges) && decide (1 < phi.operands.length) &&
      s.phiEdges[dest]? == some edges
    let old := s.table.rangeOf dest
    let s := { s with phiEdges := s.phiEdges.set dest edges }
    if again && !old.isUndefined then
      match en.widen? s block dest ty old new with
      | some widened => s.store dest widened
      | none => en.giveUpPhi s block dest ty
    else s.store dest new

/-- Compute an assignment. -/
def visitStmt (en : Engine) (s : EngineState) (dest : NameId) (rhs : Rhs) :
    EngineState × Status :=
  s.store dest (s.table.query.rhsResult (s.table.typeOf dest) rhs en.config.nonCallExceptions)

/-- The block that always follows, if the ranges tell one. A decision that rests on overflow being
    undefined does not count. -/
def decidedTarget? (query : Query) : Terminator → Option BlockId
  | .branch cond onTrue onFalse =>
      match query.decideCondition cond.op cond.lhs cond.rhs false with
      | ⟨some true, false⟩ => some onTrue
      | ⟨some false, false⟩ => some onFalse
      | _ => none
  | .switch index cases default => query.switchTarget? index cases default
  | _ => none

/-- Find out where a block continues. -/
def visitTerminator (en : Engine) (s : EngineState) (block : BlockId) (t : Terminator) :
    EngineState × Status :=
  match decidedTarget? s.table.query t with
  | some target =>
      match en.f.findEdge? block target with
      | some edge => (s.addEdge edge, .changed)
      | none => (s, .changed)
  | none => (s, .varying)

/-- Visit a place: the state after it, what the visit brings, and the name it is about. -/
def visit (en : Engine) (s : EngineState) : Site → EngineState × Status × Option NameId
  | .phi block index =>
      match (en.f.block? block).bind (·.phis[index]?) with
      | some phi =>
          let (s, status) := en.visitPhi s block phi
          (s, status, some phi.dest)
      | none => (s, .varying, none)
  | .stmt block index =>
      match (en.f.block? block).bind (·.stmts[index]?) with
      | some (.assign dest rhs) =>
          let (s, status) := en.visitStmt s dest rhs
          (s, status, some dest)
      | _ => (s, .varying, none)
  | .terminator block =>
      match en.f.block? block with
      | some b =>
          let (s, status) := en.visitTerminator s block b.terminator
          (s, status, none)
      | none => (s, .varying, none)

/-- The edges that become possible when nothing more can be learned at a place. -/
def openEdges (en : Engine) : Site → List EdgeId
  | .terminator block => en.f.succEdges block
  | _ => []

/-- Visit a place that is not settled, and let what depends on it wait. -/
def simulate (en : Engine) (s : EngineState) (site : Site) : EngineState :=
  if s.settled.contains site then s
  else
    let (s, status, output) := en.visit { s with visits := s.visits + 1 } site
    let queue (s : EngineState) (varying : Bool) :=
      match output with
      | some name => s.queueName name varying
      | none => s
    match status with
    | .unchanged => s
    | .changed => queue s false
    | .varying => (en.openEdges site).foldl EngineState.addEdge (queue (s.settle site) true)

/-- Does the terminator choose between blocks? -/
def isConditional : Terminator → Bool
  | .branch _ _ _ => true
  | .switch _ _ _ => true
  | _ => false

/-- Visit the merges of a block, and when it is entered for the first time all of it. -/
def simulateBlock (en : Engine) (s : EngineState) (block : BlockId) : EngineState :=
  match en.f.block? block with
  | none => s
  | some b =>
      let s := (List.range b.phis.length).foldl (fun s i => en.simulate s (.phi block i)) s
      if s.blockExecutable block then s
      else
        let s := { s with executableBlocks := s.executableBlocks.set block true }
        let s := (List.range b.stmts.length).foldl (fun s i => en.simulate s (.stmt block i)) s
        let conditional := isConditional b.terminator
        let sure := en.f.edgesWhere fun e => e.src == block && (e.isAbnormal || !conditional)
        let s := sure.foldl EngineState.addEdge s
        if conditional then en.simulate s (.terminator block) else s

/-- Visit the uses of a name in the blocks that can be entered. -/
def processName (en : Engine) (s : EngineState) (name : NameId) : EngineState :=
  let s := { s with queued := s.queued.set name false }
  let sites := ((en.f.uses name).map Site.ofUse).eraseDups
  sites.foldl (fun s site => if s.blockExecutable site.block then en.simulate s site else s) s

/-- The work that comes next, and the state without it. -/
def step? (en : Engine) (s : EngineState) : Option EngineState :=
  match s.edgeWork, s.varyingWork, s.changedWork with
  | edge :: rest, _, _ =>
      let s := { s with edgeWork := rest }
      match en.f.edge? edge with
      | some e => some (en.simulateBlock s e.dst)
      | none => some s
  | [], name :: rest, _ => some (en.processName { s with varyingWork := rest } name)
  | [], [], name :: rest => some (en.processName { s with changedWork := rest } name)
  | [], [], [] => none

/-- Work until nothing is left, or until there have been too many visits. Tells which of both. -/
def propagate (en : Engine) : Nat → EngineState → EngineState × Bool
  | 0, s => (s, false)
  | fuel + 1, s =>
      if en.config.maxVisits < s.visits then (s, false)
      else
        match en.step? s with
        | some next => en.propagate fuel next
        | none => (s, true)

/-- How many steps there can be: every edge is worked off once, and every name that is worked off
    has been put there by a visit. -/
def stepLimit (en : Engine) : Nat := en.f.edges.length + en.config.maxVisits + 1

/-- The state in which nothing is known and everything may be executed. -/
def surrender (en : Engine) (s : EngineState) : EngineState :=
  { s with
    table := (List.range en.f.nameCount).foldl (fun t n => (t.update n .varying).1) s.table
    executableEdges := s.executableEdges.map fun _ => true
    executableBlocks := s.executableBlocks.map fun _ => true }

/-- Propagate ranges through the function, and tell whether that came to an end by itself. -/
def run (en : Engine) : EngineState × Bool :=
  let s := en.simulateBlock (en.presettle en.start) en.f.entry
  let (s, converged) := en.propagate en.stepLimit s
  (if converged then s else en.surrender s, converged)

end Engine

end RangeFlow
