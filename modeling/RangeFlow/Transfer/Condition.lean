import RangeFlow.Range.Compare
import RangeFlow.Transfer.Query

/-! # Deciding conditions

A condition on two operands is decided from their ranges, and if these leave it open, from the
ranges of the names that are known to be equal to them.
-/

namespace RangeFlow.Query

/-- The range of a name for a comparison; a name of which nothing is known equals itself. -/
def comparedRange (query : Query) (name : NameId) : ValueRange :=
  let vr := query.rangeOf name
  if vr.isVarying || vr.isUndefined then .sameAs name else vr

/-- The names that hold the same value, the name itself among them. -/
def equivalents (query : Query) (name : NameId) : List NameId :=
  let known := (query.rangeOf name).equiv.toList
  if known.contains name then known else name :: known

/-- The answers that comparisons of equal names have given so far. -/
structure Agreement where
  /-- The answer given last. -/
  answer : Option Bool
  /-- Did every answer rest on overflow being undefined? -/
  allAssume : Bool
  /-- Do two answers contradict each other? -/
  conflict : Bool
  deriving Repr, DecidableEq

namespace Agreement

/-- No answer has been given. -/
def start : Agreement := ⟨none, true, false⟩

/-- One more comparison. After a contradiction nothing counts any more. -/
def record (agreement : Agreement) (decided : Assuming (Option Bool)) : Agreement :=
  match decided.value with
  | none => agreement
  | some answer =>
      if agreement.conflict then agreement
      else
        { answer := some answer
          allAssume := agreement.allAssume && decided.overflow
          conflict := agreement.answer.any (· != answer) }

/-- The common answer, if there is no contradiction. It rests on overflow being undefined if every
    single answer does. -/
def result (agreement : Agreement) : Assuming (Option Bool) :=
  if agreement.conflict then pure none
  else ⟨agreement.answer, agreement.answer.isSome && agreement.allAssume⟩

end Agreement

/-- The first answer of a list of decisions. -/
def firstDecided : List (Assuming (Option Bool)) → Assuming (Option Bool)
  | [] => pure none
  | decided :: rest => if decided.value.isSome then decided else firstDecided rest

/-- Compare two names through all names equal to them. Names with a common equal are equal. -/
def compareEquivalents (query : Query) (op : CmpOp) (ty : ScalarType) (a b : NameId) :
    Assuming (Option Bool) :=
  let as := query.equivalents a
  let bs := query.equivalents b
  if as.any bs.contains then
    pure (some (op == .eq || op == .le || op == .ge))
  else
    firstDecided <| as.map fun x =>
      let agreement := bs.foldl (fun agreement y =>
        agreement.record (ValueRange.compare op ty (query.comparedRange x) (query.comparedRange y)))
        Agreement.start
      agreement.result

/-- Compare a name with a number through all names equal to it. -/
def compareEquivalentsWithValue (query : Query) (op : CmpOp) (ty : ScalarType) (name : NameId)
    (value : Int) : Assuming (Option Bool) :=
  let agreement := (query.equivalents name).foldl (fun agreement member =>
    agreement.record
      (ValueRange.compareWithBound op ty (query.comparedRange member) (.const value)))
    Agreement.start
  agreement.result

/-- Decide a condition from the ranges of its operands alone. -/
def decideByRanges (query : Query) (op : CmpOp) (ty : ScalarType) :
    Operand → Operand → Assuming (Option Bool)
  | .name a, .name b => ValueRange.compare op ty (query.rangeOf a) (query.rangeOf b)
  | .name a, .const c => ValueRange.compareWithBound op ty (query.rangeOf a) (.const c)
  | .const c, .name b => ValueRange.compareWithBound op.swap ty (query.rangeOf b) (.const c)
  | .const _, .const _ => pure none

/-- Decide a condition through the names equal to its operands. -/
def decideByEquivalents (query : Query) (op : CmpOp) (ty : ScalarType) :
    Operand → Operand → Assuming (Option Bool)
  | .name a, .name b => query.compareEquivalents op ty a b
  | .name a, .const c => query.compareEquivalentsWithValue op ty a c
  | .const c, .name b => query.compareEquivalentsWithValue op.swap ty b c
  | .const _, .const _ => pure none

/-- Decide a condition on operands of the given type. -/
def decideTyped (query : Query) (op : CmpOp) (ty : ScalarType) (lhs rhs : Operand)
    (useEquiv : Bool) : Assuming (Option Bool) := do
  if ty.isTracked then
    let decided ← query.decideByRanges op ty lhs rhs
    if decided.isSome || !useEquiv then return decided
    else query.decideByEquivalents op ty lhs rhs
  else
    return none

/-- Decide a condition, with `useEquiv` also through equal names. -/
def decideCondition (query : Query) (op : CmpOp) (lhs rhs : Operand) (useEquiv : Bool) :
    Assuming (Option Bool) :=
  match lhs, rhs with
  | .const a, .const b => pure (some (op.eval a b))
  | .name n, _ => query.decideTyped op (query.typeOf n) lhs rhs useEquiv
  | _, .name n => query.decideTyped op (query.typeOf n) lhs rhs useEquiv

/-- Both truth values, as values of the type. -/
def truthValues (ty : ScalarType) : ValueRange :=
  if ty.precision = 1 then .varying else .range (.const 0) (.const 1)

/-- A range for the truth value of a comparison. A decision that rests on overflow being undefined
    does not count. -/
def compareResult (query : Query) (op : CmpOp) (lhs rhs : Operand) (ty : ScalarType) :
    ValueRange :=
  match query.decideCondition op lhs rhs true with
  | ⟨some answer, false⟩ => .singleton (ty.wrap (if answer then 1 else 0))
  | _ => truthValues ty

end RangeFlow.Query
