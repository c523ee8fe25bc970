import RangeFlow.Analysis.Config
import RangeFlow.Assertion.Liveness
import RangeFlow.Assertion.Locus
import RangeFlow.Program.DefChain

/-! # Finding facts

A branch or switch tells a fact about its operands on each of its edges, and a read or write
through a pointer tells that it is not null. A fact about a name tells facts about the names it is
computed from.
-/

namespace RangeFlow

/-- A fact that holds on an edge. -/
inductive Fact where
  /-- The name compares to the limit. -/
  | compare (name : NameId) (op : CmpOp) (limit : Operand)
  /-- The name is not zero, or it is zero. -/
  | truth (name : NameId) (nonzero : Bool)
  deriving Repr, DecidableEq

namespace Function

/-- Is the name never null by the way it is made? -/
def knownNonnull (f : Function) (name : NameId) : Bool :=
  (f.names[name]?).any (fun info =>
    match info.origin with
    | .param _ nonnull => nonnull
    | _ => false) ||
  (f.defRhs? name).any fun
    | .addressOf => true
    | .call _ nonnull => nonnull
    | _ => false

/-- Is an assertion about the name on the edge of use: is it live there, read elsewhere, and not
    read on the way of an exception? -/
def wantsAssertion (f : Function) (live : Liveness) (edge : EdgeId) (name : NameId) : Bool :=
  (f.edge? edge).any (live.onEdge f · name) && !f.hasSingleUse name &&
    !f.occursInAbnormalPhi name

/-- A fact for an edge, if an assertion about the name is of use there. -/
def onEdge (f : Function) (live : Liveness) (edge : EdgeId) (name : NameId)
    (predicate : Predicate) : List AssertLocus :=
  if f.wantsAssertion live edge name then [⟨name, predicate, .edge edge⟩] else []

/-- Does a comparison with a constant carry over from a converted value to its source? -/
def conversionKeeps (op : CmpOp) (source target : ScalarType) : Bool :=
  let orderKept :=
    op.isEquality || target.signed == source.signed ||
      (match op with
      | .le | .lt => source.signed
      | _ => !source.signed)
  let valueKept :=
    decide (source.precision < target.precision) ||
      (source.precision == target.precision && target.signed == source.signed)
  orderKept && valueKept

/-- The source of a conversion compares to a constant as the converted value does. -/
def conversionFacts (f : Function) (live : Liveness) (edge : EdgeId) (name : NameId) (op : CmpOp)
    (value : Int) : List AssertLocus :=
  match f.defRhs? name with
  | some (.unary .convert (.name source)) =>
      let ty := f.typeOf source
      if ty.isIntegral && (f.typeOf name).isIntegral && conversionKeeps op ty (f.typeOf name) &&
          ty.fits value then
        f.onEdge live edge source (.compare op (.const value))
      else []
  | _ => []

/-- An unsigned comparison as membership in the interval from zero to a number, or not. -/
def rangeTest? (op : CmpOp) (value : Int) : Option (Bool × Int) :=
  match op with
  | .le => some (false, value)
  | .gt => some (true, value)
  | .lt => if 0 < value then some (false, value - 1) else none
  | .ge => if 0 < value then some (true, value - 1) else none
  | .eq | .ne => none

/-- The name and the constant whose sum a name is. -/
def offsetBase (f : Function) (name : NameId) : NameId × Int :=
  match f.defRhs? name with
  | some (.binary .add (.name base) (.const c)) => (base, c)
  | some (.binary .sub (.name base) (.const c)) => (base, -c)
  | _ => (name, 0)

/-- Is the type an unsigned integral type of the given precision? -/
def isUnsignedOf (precision : Nat) (ty : ScalarType) : Bool :=
  ty.isIntegral && !ty.signed && ty.precision == precision

/-- An unsigned comparison of a sum with a constant tells in which interval the other summand
    lies, and the signed value it was converted from. -/
def rangeTestFacts (f : Function) (live : Liveness) (edge : EdgeId) (name : NameId) (op : CmpOp)
    (value : Int) : List AssertLocus :=
  let ty := f.typeOf name
  match rangeTest? op value with
  | some (negated, limit) =>
      let (base, offset) := f.offsetBase name
      if isUnsignedOf ty.precision ty && isUnsignedOf ty.precision (f.typeOf base) then
        let low := ty.wrap (-offset)
        let high := ty.wrap (limit - offset)
        let direct :=
          if base = name then [] else f.onEdge live edge base (.within low high negated)
        let converted :=
          match f.defRhs? base with
          | some (.unary .convert (.name source)) =>
              let origin := f.typeOf source
              if origin.isIntegral && origin.signed && origin.precision == ty.precision then
                f.onEdge live edge source (.within (origin.wrap low) (origin.wrap high) negated)
              else []
          | _ => []
        direct ++ converted
      else []
  | none => []

/-- Does the comparison say that the name is not zero, or that it is? A single bit that is one is
    not zero. -/
def truthOf? (f : Function) (name : NameId) (op : CmpOp) (value : Int) : Option Bool :=
  let oneBit := (f.typeOf name).precision == 1
  if value = 0 ∧ op = .ne then some true
  else if value = 0 ∧ op = .eq then some false
  else if value = 1 ∧ op = .eq ∧ oneBit then some true
  else if value = 1 ∧ op = .ne ∧ oneBit then some false
  else none

/-- Is the comparison one that is followed for values of the type? -/
def followsComparison (ty : ScalarType) (op : CmpOp) : Bool :=
  ty.isTracked && (!ty.isPointer || op.isEquality)

/-- The assertions that a fact asks for by itself. -/
def assertionsOf (f : Function) (live : Liveness) (edge : EdgeId) : Fact → List AssertLocus
  | .compare name op limit =>
      if followsComparison (f.typeOf name) op then
        f.onEdge live edge name (.compare op limit) ++
          match limit with
          | .const value =>
              f.conversionFacts live edge name op value ++ f.rangeTestFacts live edge name op value
          | .name _ => []
      else []
  | .truth name nonzero =>
      if (f.typeOf name).isIntegral then
        f.onEdge live edge name (.compare (if nonzero then .ne else .eq) (.const 0))
      else []

/-- The comparisons of its operands that a comparison tells. -/
def comparisonFacts (op : CmpOp) (lhs rhs : Operand) : List Fact :=
  (match lhs with
    | .name n => [.compare n op rhs]
    | .const _ => []) ++
  (match rhs with
    | .name n => [.compare n op.swap lhs]
    | .const _ => [])

/-- What is told about the operands of a name that is not zero, or that is zero. -/
def truthFacts (f : Function) (name : NameId) (nonzero : Bool) : List Fact :=
  let ty := f.typeOf name
  let oneBit := ty.precision == 1
  match f.defRhs? name with
  | some (.binary .bitAnd lhs rhs) =>
      if nonzero then ([lhs, rhs].filterMap Operand.name?).map (.truth · true) else []
  | some (.binary .bitOr lhs rhs) =>
      if nonzero then [] else ([lhs, rhs].filterMap Operand.name?).map (.truth · false)
  | some (.compare op lhs rhs) =>
      if oneBit && lhs != rhs then
        comparisonFacts (if nonzero then op else op.invert) lhs rhs
      else []
  | some (.unary .truthNot (.name source)) => if oneBit then [.truth source !nonzero] else []
  | some (.copy (.name source)) => [.truth source nonzero]
  | some (.unary .convert (.name source)) =>
      let origin := f.typeOf source
      if origin.isIntegral && decide (origin.precision ≤ ty.precision) then
        [.truth source nonzero]
      else []
  | _ => []

/-- The facts about the operands of a name that a fact about the name tells. -/
def impliedFacts (f : Function) : Fact → List Fact
  | .compare name op limit =>
      match limit with
      | .const value =>
          if followsComparison (f.typeOf name) op then
            match f.truthOf? name op value with
            | some nonzero => f.truthFacts name nonzero
            | none => []
          else []
      | .name _ => []
  | .truth name nonzero =>
      if (f.typeOf name).isIntegral then f.truthFacts name nonzero else []

/-- The assertions that a fact asks for, with those of the facts it tells, to a given depth. -/
def assertionsWithin (f : Function) (live : Liveness) (edge : EdgeId) : Nat → Fact →
    List AssertLocus
  | 0, _ => []
  | depth + 1, fact =>
      f.assertionsOf live edge fact ++
        (f.impliedFacts fact).flatMap (f.assertionsWithin live edge depth)

/-- How deep facts are followed. What a fact tells depends on a name and on whether it is zero, so
    a longer chain of facts would repeat itself. -/
def factDepth (f : Function) : Nat := 2 * f.nameCount + 1

/-- The assertions that a fact on an edge asks for, with those of all facts it tells. -/
def edgeAssertions (f : Function) (live : Liveness) (edge : EdgeId) (fact : Fact) :
    List AssertLocus :=
  f.assertionsWithin live edge f.factDepth fact

/-- The condition that holds on an edge of a branch. -/
def conditionOn? (cond : Condition) (flags : EdgeFlags) : Option Condition :=
  match flags.onTrue, flags.onFalse with
  | true, false => some cond
  | false, true => some cond.inverted
  | _, _ => none

/-- The assertions that a branch asks for. -/
def branchAssertions (f : Function) (live : Liveness) (block : BlockId) (cond : Condition) :
    List AssertLocus :=
  if cond.lhs = cond.rhs then []
  else f.edges.zipIdx.flatMap fun (e, id) =>
    if e.src = block ∧ !e.isAbnormal ∧ e.dst ≠ block then
      match conditionOn? cond e.flags with
      | some holds =>
          (comparisonFacts holds.op holds.lhs holds.rhs).flatMap (f.edgeAssertions live id)
      | none => []
    else []

/-- The least and the greatest index value per target. -/
def addHull (hulls : List (BlockId × Int × Int)) (case : SwitchCase) :
    List (BlockId × Int × Int) :=
  if hulls.any (·.1 == case.target) then
    hulls.map fun (target, low, high) =>
      if target = case.target then (target, min low case.low, max high case.high)
      else (target, low, high)
  else hulls ++ [(case.target, case.low, case.high)]

/-- What is known about an index value between two numbers. -/
def hullFacts (index : NameId) (low high : Int) : List Fact :=
  if low = high then [.compare index .eq (.const low)]
  else [.compare index .ge (.const low), .compare index .le (.const high)]

/-- The assertions that a switch asks for: on an edge that the default does not share, the index
    lies between the least and the greatest value of the cases that lead there. -/
def switchAssertions (f : Function) (live : Liveness) (block : BlockId) (index : NameId)
    (cases : List SwitchCase) (default : BlockId) : List AssertLocus :=
  if (f.typeOf index).isIntegral then
    let selected := cases.filter fun case => case.target != default && case.target != block
    (selected.foldl addHull []).flatMap fun (target, low, high) =>
      match f.findEdge? block target with
      | some id =>
          if (f.edge? id).any Edge.isAbnormal then []
          else (hullFacts index low high).flatMap (f.edgeAssertions live id)
      | none => []
  else []

/-- The place after a statement. If the statement may leave the block by an exception, that is the
    only edge without one. -/
def locusAfter? (f : Function) (block : BlockId) (index : Nat) : Option Locus :=
  (f.block? block).bind fun b =>
    if index + 1 < b.stmts.length || !f.hasAbnormalSuccessor block then
      some (.after block index)
    else
      match f.edgesWhere fun e => e.src == block && !e.isAbnormal with
      | [edge] => some (.edge edge)
      | _ => none

/-- Can a pointer be asserted not to be null after a statement, to any use? -/
def wantsNonnull (f : Function) (live : Liveness) (block : BlockId) (index : Nat)
    (name : NameId) : Bool :=
  !f.knownNonnull name && !f.occursInAbnormalPhi name && live.afterStmt f block index name

/-- The assertions that a read or write through a pointer asks for: neither it nor a pointer that
    it is converted from is null. -/
def dereferenceAssertions (f : Function) (live : Liveness) (block : BlockId) (index : Nat)
    (pointer : NameId) : List AssertLocus :=
  if (f.typeOf pointer).isPointer && f.wantsNonnull live block index pointer then
    match f.locusAfter? block index with
    | some locus =>
        let sources := (f.castSources pointer).filter fun source =>
          !f.hasSingleUse source && f.wantsNonnull live block index source
        (pointer :: sources).map fun name => ⟨name, .compare .ne (.const 0), locus⟩
    | none => []
  else []

/-- The assertions that a block asks for. -/
def blockAssertions (f : Function) (config : Config) (live : Liveness) (block : BlockId) :
    List AssertLocus :=
  match f.block? block with
  | none => []
  | some b =>
      (if config.deleteNullPointerChecks then
        b.stmts.zipIdx.flatMap fun (stmt, index) =>
          match stmt.dereferenced? with
          | some pointer => f.dereferenceAssertions live block index pointer
          | none => []
      else []) ++
      match b.terminator with
      | .branch cond _ _ => f.branchAssertions live block cond
      | .switch (.name index) cases default => f.switchAssertions live block index cases default
      | _ => []

/-- All assertions that are asked for, in the order in which they are found. -/
def requestedAssertions (f : Function) (config : Config) : List AssertLocus :=
  let live := f.liveness
  f.reversePostorder.flatMap (f.blockAssertions config live)

/-- The facts to assert, none of them covered by another. -/
def findAssertions (f : Function) (config : Config) : List AssertLocus :=
  let t := f.dominators
  Registry.byName ((f.requestedAssertions config).foldl (Registry.register f t) [])

end Function

end RangeFlow
