import RangeFlow.Analysis.Engine

/-! # The visits of a run

The first visit to a block goes over its merges, its statements and its terminator. The history of a
run lists its states in their order, with one more state after each visit.
-/

namespace RangeFlow.Engine

variable {en : Engine} {s : EngineState}

/-- The edges of a block that need no decision. -/
def sureEdges (en : Engine) (block : BlockId) (b : Block) : List EdgeId :=
  en.f.edgesWhere fun e => e.src == block && (e.isAbnormal || !isConditional b.terminator)

/-- The first visit to a block, after its merges and up to its terminator. -/
def visitStmts (en : Engine) (s : EngineState) (block : BlockId) (b : Block) : EngineState :=
  let s := { s with executableBlocks := s.executableBlocks.set block true }
  let s := (List.range b.stmts.length).foldl (fun s i => en.simulate s (.stmt block i)) s
  (en.sureEdges block b).foldl EngineState.addEdge s

/-- The first visit to a block, after its merges. -/
def enter (en : Engine) (s : EngineState) (block : BlockId) (b : Block) : EngineState :=
  if isConditional b.terminator then en.simulate (en.visitStmts s block b) (.terminator block)
  else en.visitStmts s block b

/-- The visit to the merges of a block. -/
def visitPhis (en : Engine) (s : EngineState) (block : BlockId) (b : Block) : EngineState :=
  (List.range b.phis.length).foldl (fun s i => en.simulate s (.phi block i)) s

theorem simulateBlock_eq {block : BlockId} {b : Block} (hb : en.f.block? block = some b) :
    en.simulateBlock s block =
      if (en.visitPhis s block b).blockExecutable block then en.visitPhis s block b
      else en.enter (en.visitPhis s block b) block b := by
  unfold simulateBlock
  rw [hb]
  rfl

/-- The states of the visit to a block. -/
def blockHistory (en : Engine) (s : EngineState) (block : BlockId) : List EngineState :=
  match en.f.block? block with
  | none => [s]
  | some b =>
      let merged := en.visitPhis s block b
      (List.range b.phis.length).scanl (fun s i => en.simulate s (.phi block i)) s ++
        if merged.blockExecutable block then []
        else
          (List.range b.stmts.length).scanl (fun s i => en.simulate s (.stmt block i))
            { merged with executableBlocks := merged.executableBlocks.set block true } ++
          [en.visitStmts merged block b, en.enter merged block b]

/-- The states of the work on a name. -/
def nameHistory (en : Engine) (s : EngineState) (name : NameId) : List EngineState :=
  (((en.f.uses name).map Site.ofUse).eraseDups).scanl
    (fun s site => if s.blockExecutable site.block then en.simulate s site else s)
    { s with queued := s.queued.set name false }

/-- The states of the work that comes next. -/
def stepHistory (en : Engine) (s : EngineState) : List EngineState :=
  match s.edgeWork, s.varyingWork, s.changedWork with
  | edge :: rest, _, _ =>
      let s := { s with edgeWork := rest }
      match en.f.edge? edge with
      | some e => en.blockHistory s e.dst
      | none => [s]
  | [], name :: rest, _ => en.nameHistory { s with varyingWork := rest } name
  | [], [], name :: rest => en.nameHistory { s with changedWork := rest } name
  | [], [], [] => []

/-- The states of all the work, until nothing is left or until there have been too many visits. -/
def propagateHistory (en : Engine) : Nat → EngineState → List EngineState
  | 0, _ => []
  | fuel + 1, s =>
      if en.config.maxVisits < s.visits then []
      else
        match en.step? s with
        | some next => en.stepHistory s ++ en.propagateHistory fuel next
        | none => []

/-- The states of a run. -/
def history (en : Engine) : List EngineState :=
  let prepared := en.presettle en.start
  en.start :: prepared :: (en.blockHistory prepared en.f.entry ++
    en.propagateHistory en.stepLimit (en.simulateBlock prepared en.f.entry))

end RangeFlow.Engine
