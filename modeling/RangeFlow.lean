import RangeFlow.Analysis.Session
import RangeFlow.Program.Builder
import RangeFlow.Proofs.Places
import RangeFlow.Proofs.Typing
import RangeFlow.Proofs.Dominance
import RangeFlow.Proofs.Edges
import RangeFlow.Proofs.Execution
import RangeFlow.Proofs.Wrapping
import RangeFlow.Proofs.SingleAssignment
import RangeFlow.Proofs.Conversion
import RangeFlow.Proofs.Facts
import RangeFlow.Proofs.Assertions
import RangeFlow.Proofs.Table
import RangeFlow.Proofs.Dependence
import RangeFlow.Proofs.Visits
import RangeFlow.Proofs.Worklist
import RangeFlow.Proofs.Propagation
import RangeFlow.Proofs.Membership
import RangeFlow.Proofs.Proper
import RangeFlow.Proofs.Refinement
import RangeFlow.Proofs.Fixpoint
import RangeFlow.Proofs.Comparisons
import RangeFlow.Proofs.Reachability
import RangeFlow.Proofs.DominatorTree
import RangeFlow.Proofs.Predecessors
import RangeFlow.Proofs.Splitting
import RangeFlow.Proofs.Registration
import RangeFlow.Proofs.Renaming
import RangeFlow.Proofs.Insertion
import RangeFlow.Proofs.Materialization
import RangeFlow.Proofs.Nearest
import RangeFlow.Proofs.Stripping
import RangeFlow.Proofs.AssertedUses
import RangeFlow.Proofs.RenamedSteps
import RangeFlow.Proofs.AssertedForm
import RangeFlow.Proofs.AssertedSteps
import RangeFlow.Proofs.Loops
import RangeFlow.Proofs.Rounds
import RangeFlow.Proofs.TripCount
import RangeFlow.Proofs.Trimmed
import RangeFlow.Proofs.Ranks
import RangeFlow.Proofs.History
import RangeFlow.Proofs.Changes
import RangeFlow.Proofs.BackEdges
import RangeFlow.Proofs.Intervals
import RangeFlow.Proofs.Corners
import RangeFlow.Proofs.Quotients
import RangeFlow.Proofs.Shifts
import RangeFlow.Proofs.Bitwise
import RangeFlow.Proofs.BinaryResults
import RangeFlow.Proofs.UnaryResults
import RangeFlow.Proofs.DecidedRanges
import RangeFlow.Proofs.DecidedConditions
import RangeFlow.Proofs.FirmDecisions
import RangeFlow.Proofs.Intersections
import RangeFlow.Proofs.NormalForms
import RangeFlow.Proofs.ExactIntersections
import RangeFlow.Proofs.AssertedRanges
import RangeFlow.Proofs.Meets
import RangeFlow.Proofs.CanonicalForms
import RangeFlow.Proofs.Narrowing
import RangeFlow.Proofs.DefinitionWalks
import RangeFlow.Proofs.PointerResults
import RangeFlow.Proofs.ConstantResults
import RangeFlow.Proofs.SwitchTargets
import RangeFlow.Proofs.ImmediateDominators
import RangeFlow.Proofs.BitSets
import RangeFlow.Proofs.Coverage
import RangeFlow.Proofs.LivePaths
import RangeFlow.Proofs.LoopDetection
import RangeFlow.Proofs.BoundOrder
import RangeFlow.Proofs.ExactBits
import RangeFlow.Strict
import RangeFlow.Transfer.Strict
import RangeFlow.Proofs.StrictBits
import RangeFlow.Proofs.StrictProducts
import RangeFlow.Proofs.StrictTransfer
import RangeFlow.Proofs.DepthFirstOrder
import RangeFlow.Proofs.MirroredBlocks
import RangeFlow.Proofs.Mentions
import RangeFlow.Proofs.ForwardOrder
import RangeFlow.Proofs.RhsResults
import RangeFlow.Proofs.Equivalents
import RangeFlow.Proofs.MergeResults
import RangeFlow.Proofs.KnownValues
import RangeFlow.Proofs.Soundness
import RangeFlow.Proofs.TruthfulEvolutions
import RangeFlow.Proofs.PreparedRuns
import RangeFlow.Proofs.Conservative
