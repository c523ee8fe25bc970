import RangeFlow.Analysis.Evolution
import RangeFlow.Analysis.Table
import RangeFlow.Transfer.Rhs

/-! # Widening and narrowing at merges

A range that keeps growing is pushed to the ends of the type, so that the analysis ends. What is
known about the evolution of a loop variable brings it back.
-/

namespace RangeFlow

namespace Query

/-- The bound that an operand stands for, a constant where it is known to be one. -/
def boundOf (query : Query) (operand : Operand) : Bound :=
  match query.constant? operand with
  | some c => .const c
  | none => operand.toBound

/-- The ends of the last value of an evolving name, by the number of its iterations. Without that
    number, or where it does not fit the type, these are the ends of the type. -/
def lastValueEnds (query : Query) (ty : ScalarType) (ev : Evolution) : Bound × Bound :=
  let typeEnds := (Bound.const ty.minValue, Bound.const ty.maxValue)
  let init := query.operandRange ev.init
  match ev.tripCount.bind fun trips =>
      (Wide.check ((trips - 1 : Nat) : Int)).bind (Wide.mul? ev.step) with
  | some delta =>
      if init.isRange && (ty.fits delta || !ty.signed) then
        let last := ValueRange.binary .add ty init (.singleton (ty.wrap delta))
        if last.isRange then (last.min, last.max) else typeEnds
      else typeEnds
  | none => typeEnds

/-- The ends of an evolving name within a range: it starts at one end and does not pass the last
    value at the other. -/
def evolvedEnds (query : Query) (ty : ScalarType) (ev : Evolution) (vr : ValueRange) :
    Bound × Bound :=
  let init := query.boundOf ev.init
  let (lastMin, lastMax) := query.lastValueEnds ty ev
  if vr.isVarying || vr.isUndefined then
    if ev.direction = .decreasing then (lastMin, init) else (init, lastMax)
  else if ev.direction = .decreasing then
    (if vr.min = .negInf || Bound.compare ty vr.min lastMin == .less then lastMin else vr.min,
      if Bound.compare ty init vr.max == .less then init else vr.max)
  else
    (if Bound.compare ty init vr.min == .greater then init else vr.min,
      if vr.max = .posInf || Bound.compare ty lastMax vr.max == .less then lastMax else vr.max)

/-- The range of an evolving name, narrowed by its evolution. Nothing is concluded if the name may
    wrap or moves in no known direction. -/
def narrow (query : Query) (ty : ScalarType) (ev : Evolution) (vr : ValueRange) : ValueRange :=
  if vr.isAnti || ev.direction = .unknown || !ev.noWrap then vr
  else
    let (min, max) := query.evolvedEnds ty ev vr
    if Bound.compare ty min max == .greater then vr
    else (ValueRange.range min max).withEquiv vr.equiv

/-- The intervals of the values an index may have; nothing if they are not known. -/
def indexIntervals? (query : Query) : Operand → Option (List (Int × Int))
  | .const c => some [(c, c)]
  | .name n =>
      let ty := query.typeOf n
      let vr := query.rangeOf n
      match vr.constBounds? ty with
      | some (lo, hi) =>
          if vr.isRange then some [(lo, hi)]
          else
            some ([(ty.minValue, lo - 1), (hi + 1, ty.maxValue)].filter fun (l, h) =>
              decide (l ≤ h))
      | none => none

/-- The targets that the cases select from an interval, and the default if some value is in no
    case. Cases are in ascending order; `uncovered` is the first value not yet looked at. -/
def intervalTargets (default : BlockId) (hi : Int) : Int → List SwitchCase → List BlockId
  | uncovered, [] => if uncovered ≤ hi then [default] else []
  | uncovered, case :: rest =>
      (if uncovered < case.low then [default] else []) ++
        case.target :: intervalTargets default hi (max uncovered (case.high + 1)) rest

/-- The block that a switch continues with, if all values of the index lead to the same one. -/
def switchTarget? (query : Query) (index : Operand) (cases : List SwitchCase)
    (default : BlockId) : Option BlockId :=
  match query.indexIntervals? index with
  | none => none
  | some intervals =>
      let targets := intervals.flatMap fun (lo, hi) =>
        intervalTargets default hi lo
          (cases.filter fun case => decide (lo ≤ case.high) && decide (case.low ≤ hi))
      match targets.eraseDups with
      | [target] => some target
      | _ => none

end Query

namespace ValueRange

/-- The complement of an interval with one end moved: only the end that stayed is still left
    out. -/
def widenAnti? (ty : ScalarType) (new : ValueRange) (minMoved maxMoved : Bool) :
    Option ValueRange :=
  let keep (b : Bound) :=
    let widened := canonical ty (.outside b b)
    if widened.isVarying then none else some (widened.withEquiv new.equiv)
  match minMoved, maxMoved with
  | true, false => keep new.max
  | false, true => keep new.min
  | _, _ => none

/-- An interval with its moved ends pushed to the ends of the type, or to infinities if the name
    may overflow. -/
def pushEnds (ty : ScalarType) (mayOverflow : Bool) (new : ValueRange) (minMoved maxMoved : Bool) :
    ValueRange :=
  let least := if mayOverflow then .negInf else .const ty.minValue
  let greatest := if mayOverflow then .posInf else .const ty.maxValue
  (range (if minMoved then least else new.min) (if maxMoved then greatest else new.max)).withEquiv
    new.equiv

end ValueRange

end RangeFlow
