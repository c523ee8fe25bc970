import RangeFlow.Graph.Loops
import RangeFlow.Program.DefChain

/-! # Induction variables

A name merged at the head of a loop, with one value from outside and another from inside, evolves
with the iterations. If the value from inside is the name plus or minus a constant, the step is
known.
-/

namespace RangeFlow

/-- How an iteration changes a name. -/
inductive UpdateKind where
  | add
  | sub
  | unknown
  deriving Repr, DecidableEq

/-- The written form of the kind of change. -/
protected def UpdateKind.toString : UpdateKind → String
  | add => "Add"
  | sub => "Sub"
  | unknown => "Unknown"

instance : ToString UpdateKind := ⟨UpdateKind.toString⟩

/-- A name that is merged at the head of a loop. -/
structure InductionVar where
  /-- The merged name. -/
  phi : NameId
  /-- The value on entry, and the block it comes from. -/
  init : Operand
  initBlock : BlockId
  /-- The value after an iteration, and the block it comes from. -/
  update : Operand
  updateBlock : BlockId
  kind : UpdateKind
  /-- The constant that is added or subtracted. -/
  stride : Option Int
  deriving Repr, DecidableEq

/-- What an iteration adds, if that is a constant. -/
def InductionVar.step? (iv : InductionVar) : Option Int :=
  match iv.kind with
  | .add => iv.stride
  | .sub => iv.stride.bind Wide.neg?
  | .unknown => none

namespace Function

/-- Is the operand the name, perhaps behind copies? -/
def isCopyOf (f : Function) (name : NameId) (operand : Operand) : Bool :=
  operand.name?.any fun n => f.stripCopies n == name

/-- How the value after an iteration is made from the merged name. -/
def updateOf (f : Function) (update : Operand) (phi : NameId) : UpdateKind × Option Int :=
  match update.name?.bind fun n => f.defRhs? (f.stripCopies n) with
  | some (.binary .add lhs rhs) =>
      if f.isCopyOf phi lhs then (.add, f.literal? rhs)
      else if f.isCopyOf phi rhs then (.add, f.literal? lhs)
      else (.unknown, none)
  | some (.binary .sub lhs rhs) =>
      if f.isCopyOf phi lhs then (.sub, f.literal? rhs) else (.unknown, none)
  | _ => (.unknown, none)

/-- The induction variable of a merge at the head of a loop: it takes one value from outside the
    loop and some from inside, of which the first counts. -/
def inductionVar? (f : Function) (l : NaturalLoop) (phi : Phi) : Option InductionVar :=
  let inside := phi.operands.filter fun o => l.contains o.predecessor
  let outside := phi.operands.filter fun o => !l.contains o.predecessor
  match outside, inside with
  | [init], update :: _ =>
      let (kind, stride) := f.updateOf update.value phi.dest
      some
        { phi := phi.dest
          init := init.value
          initBlock := init.predecessor
          update := update.value
          updateBlock := update.predecessor
          kind
          stride }
  | _, _ => none

/-- The merges at the head of a loop. -/
def headerPhis (f : Function) (l : NaturalLoop) : List Phi :=
  match f.block? l.header with
  | some b => b.phis
  | none => []

/-- The induction variables of a loop. -/
def inductionVars (f : Function) (l : NaturalLoop) : List InductionVar :=
  (f.headerPhis l).filterMap (f.inductionVar? l)

/-- The loops of the function. -/
def loops (f : Function) : LoopForest := .ofGraph f.graph f.dominators

end Function

end RangeFlow
