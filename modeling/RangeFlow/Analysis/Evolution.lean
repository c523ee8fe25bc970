import RangeFlow.Analysis.Induction

/-! # Evolution of loop variables

An evolution says that a name starts at a value and grows by a constant step with every iteration,
whether it may wrap on the way, and how often the head of the loop is executed at most.
-/

namespace RangeFlow

/-- The direction in which a name moves. -/
inductive Direction where
  | increasing
  | decreasing
  | unknown
  deriving Repr, DecidableEq

namespace Direction

/-- The direction of a step. -/
def ofStep (step : Int) : Direction :=
  if 0 < step then increasing else if step < 0 then decreasing else unknown

/-- The written form of the direction. -/
protected def toString : Direction → String
  | increasing => "Increasing"
  | decreasing => "Decreasing"
  | unknown => "Unknown"

instance : ToString Direction := ⟨Direction.toString⟩

end Direction

/-- How the value of a name at the head of a loop changes. -/
structure Evolution where
  /-- The value on entry. -/
  init : Operand
  /-- What each iteration adds. -/
  step : Int
  direction : Direction
  /-- No value on the way leaves the type. -/
  noWrap : Bool
  /-- The head of the loop is executed at most this often. -/
  tripCount : Option Nat
  deriving Repr, DecidableEq

/-- A source of evolutions, asked for a loop of a function with known dominators and a name merged
    at the head of the loop. -/
abbrev EvolutionOracle := Function → DominatorTree → NaturalLoop → NameId → Option Evolution

/-- The oracle that knows nothing. -/
def EvolutionOracle.silent : EvolutionOracle := fun _ _ _ _ => none

/-- The oracle that answers from a list, by name. -/
def EvolutionOracle.ofList (known : List (NameId × Evolution)) : EvolutionOracle :=
  fun _ _ _ name => known.lookup name

/-- For how many iterations from the first one the numbers `base`, `base + step`, and so on compare
    to the limit. There is no answer if they always do, or if the distance leaves a wide word. -/
def continuingIterations (base step : Int) (op : CmpOp) (limit : Int) : Option Nat :=
  if !op.eval base limit then some 0
  else if op = .eq then some 1
  else
    let stride := step.natAbs
    match if 0 < step then Wide.sub? limit base else Wide.sub? base limit with
    | none => none
    | some distance =>
        if distance < 0 then none
        else
          let distance := distance.toNat
          match op, decide (0 < step) with
          | .lt, true | .gt, false => some ((distance + stride - 1) / stride)
          | .le, true | .ge, false => some (distance / stride + 1)
          | .ne, _ => if distance % stride = 0 then some (distance / stride) else none
          | _, _ => none

namespace Function

/-- The condition of a branch under which the loop goes on, if the other edge leaves it. -/
def stayCondition? (l : NaturalLoop) (cond : Condition) (onTrue onFalse : BlockId) :
    Option Condition :=
  match l.contains onTrue, l.contains onFalse with
  | true, false => some cond
  | false, true => some cond.inverted
  | _, _ => none

/-- The first value of an operand that is the merged name, or the name after an iteration. -/
def firstValue? (f : Function) (iv : InductionVar) (init step : Int) (operand : Operand) :
    Option Int :=
  operand.name?.bind fun n =>
    let name := f.stripCopies n
    if name = iv.phi then some init
    else if iv.update.name?.any fun u => f.stripCopies u == name then Wide.add? init step
    else none

/-- A condition as a comparison of an evolving value with a constant: its first value, the
    comparison and the constant. -/
def orient? (f : Function) (iv : InductionVar) (init step : Int) (cond : Condition) :
    Option (Int × CmpOp × Int) :=
  match f.firstValue? iv init step cond.lhs with
  | some base => (f.literal? cond.rhs).map (base, cond.op, ·)
  | none =>
      match f.firstValue? iv init step cond.rhs with
      | some base => (f.literal? cond.lhs).map (base, cond.op.swap, ·)
      | none => none

/-- How often the head of the loop is executed at most, by a comparison under which it goes on.
    The values up to the first one that fails the comparison must not leave the type. -/
def tripsBy? (ty : ScalarType) (base step : Int) (op : CmpOp) (limit : Int) : Option Nat :=
  match continuingIterations base step op limit with
  | none => none
  | some iterations =>
      let last :=
        (Wide.check iterations).bind fun m => (Wide.mul? step m).bind (Wide.add? base)
      if ty.fits base && last.any ty.fits then some (iterations + 1) else none

/-- How often the head of the loop is executed at most, by one of its exits. The exit counts if
    every iteration passes it. -/
def tripsByExit? (f : Function) (t : DominatorTree) (l : NaturalLoop) (iv : InductionVar)
    (ty : ScalarType) (init step : Int) (exit : LoopExit) : Option Nat :=
  if l.latches.all fun latch => t.dominates exit.exiting latch then
    match (f.block? exit.exiting).map Block.terminator with
    | some (.branch cond onTrue onFalse) => do
        let stay ← stayCondition? l cond onTrue onFalse
        let (base, op, limit) ← f.orient? iv init step stay
        tripsBy? ty base step op limit
    | _ => none
  else none

/-- How often the head of the loop is executed at most. -/
def tripCount? (f : Function) (t : DominatorTree) (l : NaturalLoop) (iv : InductionVar)
    (step : Int) (ty : ScalarType) : Option Nat :=
  match f.literal? iv.init with
  | none => none
  | some init => (l.exits.filterMap (f.tripsByExit? t l iv ty init step)).min?

/-- The evolution of a name merged at the head of a loop, read off its definition. The name has to
    take the same value from everywhere inside the loop. -/
def evolution? (f : Function) (t : DominatorTree) (strictOverflow : Bool) (l : NaturalLoop)
    (name : NameId) : Option Evolution := do
  let iv ← ((f.headerPhis l).filter (·.dest == name)).findSome? (f.inductionVar? l)
  let phi ← (f.headerPhis l).find? (·.dest == name)
  if phi.operands.any fun o => l.contains o.predecessor && o.value != iv.update then
    none
  else
    let step ← iv.step?
    let ty := f.typeOf name
    let tripCount := if step = 0 then none else f.tripCount? t l iv step ty
    return {
      init := iv.init
      step
      direction := .ofStep step
      noWrap := (strictOverflow && ty.overflowUndefined) || tripCount.isSome
      tripCount }

end Function

/-- The oracle that reads evolutions off definitions. -/
def EvolutionOracle.induction (strictOverflow : Bool) : EvolutionOracle :=
  fun f t l name => f.evolution? t strictOverflow l name

end RangeFlow
