import RangeFlow.Strict
import RangeFlow.Transfer.Unary

/-! # Ranges of operators over strict words

The ranges of binary and unary operators, computed with the operations of strict words wherever no
check is made. Comparing and joining ranges takes no arithmetic and is the same here.
-/

namespace RangeFlow.Strict

open ValueRange (ofExtent range singleton full varying undefined)

/-- The two's complement word of a number, cut to the type's precision. -/
def toBits (ty : ScalarType) (value : Int) : Strict Nat := do
  return (BitVec.ofInt 128 value).toNat &&& (← mask ty)

/-- The value of the type whose word is given, cut to the type's precision. -/
def ofBits (ty : ScalarType) (bits : Nat) : Strict Int := do
  wrap ty (BitVec.ofNat 128 (bits &&& (← mask ty))).toInt

/-- The same values written with ends in order. -/
def ordered (ty : ScalarType) (e : Extent) : Strict Extent :=
  match e.min.concrete? ty, e.max.concrete? ty with
  | some lo, some hi =>
      if hi < lo then
        match e.min, e.max with
        | .const _, .const _ => do
            let first ← add hi 1
            let last ← sub lo 1
            if last < first then return .varying
            else match e with
              | .inside _ _ => return .outside (.const first) (.const last)
              | _ => return .inside (.const first) (.const last)
        | _, _ => return .varying
      else return e
  | _, _ => return .varying

/-- The same values written as an interval if one end of the missing interval is an end of the
    type. -/
def preferRange (ty : ScalarType) : Extent → Strict Extent
  | .outside lo hi =>
      if lo.isMin ty && hi.isMax ty then return .varying
      else if lo.isMin ty && !(!ty.signed && hi.isZero) then
        match hi.concrete? ty with
        | some h => do return .inside (.const (← add h 1)) (.const ty.maxValue)
        | none => return .varying
      else if hi.isMax ty then
        match lo.concrete? ty with
        | some l => do return .inside (.const ty.minValue) (.const (← sub l 1))
        | none => return .varying
      else return .outside lo hi
  | e => return e

/-- The normal form of an extent. -/
def canonical (ty : ScalarType) (e : Extent) : Strict ValueRange :=
  match e with
  | .undefined => return undefined
  | .varying => return varying
  | _ =>
      if e.isSymbolic then return ofExtent e
      else do return ofExtent ((← preferRange ty (← ordered ty e)).dropFull ty)

/-- The values of a type below a number, if there are any. -/
def below? (ty : ScalarType) (lo : Int) : Strict (Option ValueRange) :=
  if ty.minValue < lo then do
    return some (range (.const ty.minValue) (.const (← sub lo 1)))
  else return none

/-- The values of a type above a number, if there are any. -/
def above? (ty : ScalarType) (hi : Int) : Strict (Option ValueRange) :=
  if hi < ty.maxValue then do
    return some (range (.const (← add hi 1)) (.const ty.maxValue))
  else return none

/-- The intervals below and above the interval that a range leaves out. -/
def splitAnti? (ty : ScalarType) (vr : ValueRange) :
    Strict (Option (ValueRange × Option ValueRange)) :=
  match vr.extent with
  | .outside _ _ =>
      match vr.constBounds? ty with
      | none => return none
      | some (lo, hi) => do
          match ← below? ty lo, ← above? ty hi with
          | some below, above => return some (below, above)
          | none, some above => return some (above, none)
          | none, none => return none
  | _ => return none

/-- The normal form of an extent whose ends are in order. -/
def finish (ty : ScalarType) (extent : Extent) : Strict ValueRange :=
  if (extent.min.isMin ty || extent.min.isInfinity) &&
      (extent.max.isMax ty || extent.max.isInfinity) then return varying
  else if (Bound.compare ty extent.min extent.max).isLe then canonical ty extent
  else return varying

/-- The operator on two bounds that mention no name. -/
def boundBinary? (op : BinaryOp) (ty : ScalarType) (a b : Bound) : Strict (Option Bound) :=
  match a.concrete? ty, b.concrete? ty with
  | some x, some y =>
      if !ty.overflowUndefined then do
        match ← applyExact op x y ty with
        | some exact => return if ty.fits exact then some (.const exact) else none
        | none => return none
      else if op == .mul && ((x == 0 && !a.isInfinity) || (y == 0 && !b.isInfinity)) then
        return some (.const 0)
      else do
        match ← applyExact op x y ty with
        | some exact =>
            if !a.isInfinity && !b.isInfinity && ty.fits exact then
              return some (.const exact)
            else if a.isInfinity && b.isInfinity &&
                ((op == .add && x.sign != y.sign) || (op == .sub && x.sign == y.sign)) then
              return none
            else if (a.isInfinity || b.isInfinity) && (op.isDivision || op == .shr) then
              return none
            else
              let positive : Bool :=
                match op with
                | .mul => x.sign == y.sign
                | .add => if 0 ≤ x then b != .negInf else b == .posInf
                | .sub => if 0 ≤ x then b != .posInf else b == .negInf
                | .shl | .shr => decide (0 ≤ x)
                | _ => true
              return some (if positive then .posInf else .negInf)
        | none => return none
  | _, _ => return none

/-- The exact ends of a sum or difference of two intervals. -/
def sumEnds (plus : Bool) (a b : Int × Int) : Strict (Int × Int) := do
  if plus then return (← add a.1 b.1, ← add a.2 b.2)
  else return (← sub a.1 b.2, ← sub a.2 b.1)

/-- The extent of the numbers between two ends, taken modulo the type's size. -/
def wrapEnds? (ty : ScalarType) (lo hi : Int) : Strict (Option Extent) := do
  let low ← wrap ty lo
  let high ← wrap ty hi
  if ValueRange.sideOf ty lo = ValueRange.sideOf ty hi then
    return some (.inside (.const low) (.const high))
  else if ValueRange.sideOf ty lo = .below ∧ ValueRange.sideOf ty hi = .above then return none
  else if high = ty.maxValue ∨ low = ty.minValue then return none
  else
    let first ← add high 1
    let last ← sub low 1
    if last < first then return none
    else return some (.outside (.const first) (.const last))

/-- Sum or difference of two intervals. -/
def sum (plus : Bool) (ty : ScalarType) (a b : ValueRange) : Strict ValueRange :=
  match a.extent, b.extent, a.constBounds? ty, b.constBounds? ty with
  | .inside _ _, .inside _ _, some ends0, some ends1 => do
      let (lo, hi) ← sumEnds plus ends0 ends1
      if ty.wraps then
        match ← wrapEnds? ty lo hi with
        | some extent => finish ty extent
        | none => return varying
      else
        let (lowInf, highInf) :=
          if plus then (b.min == .negInf, b.max == .posInf)
          else (b.max == .posInf, b.min == .negInf)
        let min :=
          if ty.overflowUndefined && (a.min == .negInf || lowInf) then .negInf
          else ValueRange.saturate ty lo
        let max :=
          if ty.overflowUndefined && (a.max == .posInf || highInf) then .posInf
          else ValueRange.saturate ty hi
        finish ty (.inside min max)
  | _, _, _, _ => return varying

/-- The operator on pairs of ends, up to the first pair without a result. -/
def results? (op : BinaryOp) (ty : ScalarType) : List (Bound × Bound) → Strict (Option (List Bound))
  | [] => return some []
  | (x, y) :: pairs => do
      match ← boundBinary? op ty x y with
      | none => return none
      | some first => return (← results? op ty pairs).map (first :: ·)

/-- The operator on the ends of two ranges, each lower end with each upper end. -/
def crossProducts (op : BinaryOp) (ty : ScalarType) (a b : ValueRange) : Strict ValueRange := do
  let pairs :=
    [(a.min, b.min)] ++
    (if b.min = b.max then [] else [(a.min, b.max)]) ++
    (if a.min = a.max then [] else [(a.max, b.min)]) ++
    (if a.min = a.max ∨ b.min = b.max then [] else [(a.max, b.max)])
  match ← results? op ty pairs with
  | some (first :: rest) =>
      let min := rest.foldl (fun m v => if Bound.compare ty v m == .less then v else m) first
      let max := rest.foldl (fun m v => if Bound.compare ty v m == .greater then v else m) first
      finish ty (.inside min max)
  | _ => return varying

/-- An unsigned interval moved down by the type's size if that brings it closer to zero. -/
def recentre (ty : ScalarType) (ends : Int × Int) : Strict (Int × Int) := do
  let size ← size ty
  if ty.signed then return ends
  else if size < (← add ends.1 ends.2) then return (← sub ends.1 size, ← sub ends.2 size)
  else return ends

/-- Product of two intervals modulo the type's size. The products themselves are checked, their
    distance is not. -/
def wrappingProduct (ty : ScalarType) (a b : Int × Int) : Strict ValueRange := do
  match ValueRange.endProducts? (← recentre ty a) (← recentre ty b) with
  | some products =>
      let lo := products.foldl Min.min Wide.greatest
      let hi := products.foldl Max.max Wide.least
      if (← sub (← size ty) 1) < (← sub hi lo) then return varying
      else canonical ty (.inside (.const (← wrap ty lo)) (.const (← wrap ty hi)))
  | none => return varying

/-- Product of two ranges. -/
def product (ty : ScalarType) (a b : ValueRange) : Strict ValueRange :=
  match ty.wraps && a.isRange && b.isRange, a.constBounds? ty, b.constBounds? ty with
  | true, some ends0, some ends1 => wrappingProduct ty ends0 ends1
  | _, _, _ => if a.isAnti || b.isAnti then return varying else crossProducts .mul ty a b

/-- Does every left shift of an end by an end stay in the type? -/
def shiftsFit (ty : ScalarType) (a b : Int × Int) : Strict Bool :=
  [(a.1, b.1), (a.1, b.2), (a.2, b.1), (a.2, b.2)].allM fun (x, n) => do
    return (← applyExact .shl x n ty).any ty.fits

/-- Left or right shift of a range. -/
def shift (left : Bool) (ty : ScalarType) (a b : ValueRange) : Strict ValueRange :=
  match b.isRange && !b.usesInfinity, b.constBounds? ty with
  | true, some (lo1, hi1) =>
      if lo1 < 0 ∨ (ty.precision : Int) ≤ hi1 then return varying
      else if !left then crossProducts .shr ty a b
      else if lo1 = hi1 then do
        product ty.wrapping a (singleton (← wrap ty.wrapping (← shl 1 lo1)))
      else
        match a.isRange && !a.usesInfinity, a.constBounds? ty with
        | true, some ends0 => do
            if ← shiftsFit ty ends0 (lo1, hi1) then crossProducts .shl ty a b else return varying
        | _, _ => return varying
  | _, _ => return varying

/-- The interval of all numbers of at most the magnitude of an end. -/
def absExtent (ty : ScalarType) (vr : ValueRange) : Strict ValueRange :=
  match vr.usesInfinity, vr.constBounds? ty with
  | false, some (lo, hi) => do
      let magnitude := Max.max (← abs lo) (← abs hi)
      if !ty.fits magnitude then return varying
      else if !ty.fits (← neg magnitude) then return varying
      else canonical ty (.inside (.const (← neg magnitude)) (.const magnitude))
  | _, _ => return varying

/-- Quotient by a divisor that is not negative, zero apart. -/
def quotientTowardsZero (ty : ScalarType) (a : ValueRange) : Strict ValueRange :=
  let zero := Bound.const 0
  let max? :=
    match Bound.compare ty a.max zero with
    | .less => some zero
    | .equal | .greater => some a.max
    | .notEqual | .unknown => none
  let min? :=
    match Bound.compare ty a.min zero with
    | .greater => some zero
    | .equal | .less => some a.min
    | .notEqual | .unknown => none
  match min?, max? with
  | some min, some max => finish ty (.inside min max)
  | _, _ => return varying

/-- Quotient of a dividend that is an interval without names. -/
def quotientOfInterval (op : BinaryOp) (ty : ScalarType) (a b : ValueRange) : Strict ValueRange :=
  if b.rangeExcludesZero ty then crossProducts op ty a b
  else if !ty.signed || b.isNonnegative ty then quotientTowardsZero ty a
  else absExtent ty a

/-- Quotient of two ranges. -/
def quotient (op : BinaryOp) (ty : ScalarType) (a b : ValueRange) : Strict ValueRange :=
  if a.isRange && !a.isSymbolic then quotientOfInterval op ty a b
  else if b.rangeExcludesZero ty && !b.isSymbolic then quotientOfInterval op ty (full ty) b
  else return varying

/-- Remainder of two ranges. -/
def remainder (ty : ScalarType) (a b : ValueRange) : Strict ValueRange :=
  match b.rangeExcludesZero ty && !b.min.isMin ty, b.constBounds? ty with
  | true, some ends => do
      let limit ← sub (Max.max (← abs ends.1) ends.2) 1
      let min ← if !ty.signed || a.isNonnegative ty then pure 0 else neg limit
      finish ty (.inside (.const min) (.const limit))
  | _, _ => return varying

/-- Minimum or maximum of two ranges. -/
def extremum (least : Bool) (ty : ScalarType) (a b : ValueRange) : Strict ValueRange :=
  match ValueRange.extremumEnds? least ty a b with
  | some (min, max) => finish ty (.inside min max)
  | none => return varying

/-- The known bits of the interval between two values. -/
def bitsBetween (ty : ScalarType) (lo hi : Int) : Strict KnownBits := do
  if lo = hi then
    let bits ← toBits ty lo
    return ⟨bits, bits, true⟩
  else if 0 ≤ lo ∨ hi < 0 then
    let low ← toBits ty lo
    let high ← toBits ty hi
    let differ := low ^^^ high
    if differ = 0 then return ⟨low ||| high, low &&& high, true⟩
    else
      let free ← lowestBits (Nat.log2 differ + 1)
      return ⟨(low ||| high) ||| free, (low &&& high) &&& complement free, true⟩
  else return ⟨← mask ty, 0, true⟩

/-- The known bits of a range. -/
def knownBits (ty : ScalarType) (vr : ValueRange) : Strict KnownBits :=
  if vr.isRange && !vr.usesInfinity then
    match vr.constBounds? ty with
    | some (lo, hi) => bitsBetween ty lo hi
    | none => do return ⟨← mask ty, 0, false⟩
  else do return ⟨← mask ty, 0, false⟩

/-- The upper end of a conjunction, cut by the upper ends of sides that are not negative or of two
    negative sides. -/
def cutMost (most : Int) (ends0 ends1 : Option (Int × Int)) : Int :=
  let most :=
    match ends0, ends1 with
    | some (_, hi0), some (_, hi1) =>
        if hi0 < 0 ∧ hi1 < 0 then Min.min (Min.min most hi0) hi1 else most
    | _, _ => most
  let cut (most : Int) (ends : Option (Int × Int)) :=
    match ends with
    | some (lo, hi) => if 0 ≤ lo then Min.min most hi else most
    | none => most
  cut (cut most ends0) ends1

/-- The lower end of a disjunction, cut by the lower ends of negative sides or of two sides that
    are not negative. -/
def cutLeast (least : Int) (ends0 ends1 : Option (Int × Int)) : Int :=
  let least :=
    match ends0, ends1 with
    | some (lo0, _), some (lo1, _) =>
        if 0 ≤ lo0 ∧ 0 ≤ lo1 then Max.max (Max.max least lo0) lo1 else least
    | _, _ => least
  let cut (least : Int) (ends : Option (Int × Int)) :=
    match ends with
    | some (lo, hi) => if hi < 0 then Max.max least lo else least
    | none => least
  cut (cut least ends0) ends1

/-- The ends of a bitwise operator on two ranges. Complements are those of whole words. -/
def bitwiseEnds (op : BinaryOp) (ty : ScalarType) (a b : ValueRange) : Strict (Int × Int) := do
  let bits0 ← knownBits ty a
  let bits1 ← knownBits ty b
  let ends0 := if bits0.known then a.constBounds? ty else none
  let ends1 := if bits1.known then b.constBounds? ty else none
  match op with
  | .bitAnd =>
      let least ← ofBits ty (bits0.must &&& bits1.must)
      let most ← ofBits ty (bits0.may &&& bits1.may)
      return (least, cutMost most ends0 ends1)
  | .bitOr =>
      let most ← ofBits ty (bits0.may ||| bits1.may)
      let least ← ofBits ty (bits0.must ||| bits1.must)
      return (cutLeast least ends0 ends1, most)
  | _ =>
      let zeros := (bits0.must &&& bits1.must) ||| complement (bits0.may ||| bits1.may)
      let ones := (bits0.must &&& complement bits1.may) ||| (bits1.must &&& complement bits0.may)
      return (← ofBits ty ones, ← ofBits ty (complement zeros))

/-- A bitwise operator on two ranges. The ends of an exclusive disjunction count only if they do
    not have the sign bit the wrong way round. -/
def bitwise (op : BinaryOp) (ty : ScalarType) (a b : ValueRange) : Strict ValueRange := do
  let (min, max) ← bitwiseEnds op ty a b
  if op = .bitAnd ∨ op = .bitOr ∨ min < 0 ∨ 0 ≤ max then
    finish ty (.inside (.const min) (.const max))
  else return varying

/-- The operator on two ranges that are not split. -/
def integerBinary (op : BinaryOp) (ty : ScalarType) (a b : ValueRange) : Strict ValueRange :=
  if a.isUndefined && b.isUndefined then return undefined
  else
    let a := if a.isUndefined then varying else a
    let b := if b.isUndefined then varying else b
    if !ValueRange.toleratesPartial op &&
        (a.isVarying || b.isVarying || a.kind != b.kind || a.isSymbolic || b.isSymbolic) then
      return varying
    else match op with
      | .add => sum true ty a b
      | .sub => sum false ty a b
      | .mul => product ty a b
      | .shl => shift true ty a b
      | .shr => shift false ty a b
      | .truncDiv | .floorDiv | .ceilDiv | .roundDiv | .exactDiv => quotient op ty a b
      | .truncMod => remainder ty a b
      | .min => extremum true ty a b
      | .max => extremum false ty a b
      | .bitAnd | .bitOr | .bitXor => bitwise op ty a b
      | .pointerPlus => return varying

/-- The operator with the second side split into intervals. -/
def binaryOfSplitRight (op : BinaryOp) (ty : ScalarType) (a b : ValueRange) :
    Strict ValueRange := do
  match ← splitAnti? ty b with
  | some (first, some second) =>
      return .meet ty (← integerBinary op ty a first) (← integerBinary op ty a second)
  | some (first, none) => integerBinary op ty a first
  | none => integerBinary op ty a b

/-- A range for the operator's result on a value of each range. -/
def binary (op : BinaryOp) (ty : ScalarType) (a b : ValueRange) : Strict ValueRange :=
  if !ty.isTracked then return varying
  else if ty.isPointer then return .pointerBinary op ty a b
  else do
    match ← splitAnti? ty a with
    | some (first, some second) =>
        return .meet ty (← binaryOfSplitRight op ty first b) (← binaryOfSplitRight op ty second b)
    | some (first, none) => binaryOfSplitRight op ty first b
    | none => binaryOfSplitRight op ty a b

/-- The operator's value on a constant. -/
def fold (op : UnaryOp) (x : Int) (source target : ScalarType) : Strict (Option Int) :=
  if op == .convert then do return some (← wrap target x)
  else
    match op.applyExact x with
    | some exact =>
        if target.fits exact then return some exact
        else if source.wraps then do return some (← wrap target exact)
        else return none
    | none => return none

/-- The operator on the one value of a range. -/
def foldSingle (op : UnaryOp) (source target : ScalarType) (vr : ValueRange) :
    Strict ValueRange :=
  match vr.single? with
  | some value => do
      match ← fold op value source target with
      | some result => return singleton result
      | none => return varying
  | none => return varying

/-- Does conversion keep the values between the ends apart? The distance of the ends is measured
    only for a conversion to fewer bits. -/
def convertsExactly (source target : ScalarType) (vr : ValueRange) (ends : Int × Int) :
    Strict Bool := do
  if source.precision ≤ target.precision then return true
  else if vr.isRange then return (← shr (← sub ends.2 ends.1) target.precision) == 0
  else return false

/-- The end of a converted range: a value is wrapped, an infinity stays one. -/
def convertEnd (target : ScalarType) (infinity bound : Bound) (value : Int) : Strict Bound :=
  if bound.isInfinity then return infinity else do return .const (← wrap target value)

/-- Conversion of a range to a type that is not a pointer. -/
def convert (source target : ScalarType) (vr : ValueRange) : Strict ValueRange :=
  let widening := decide (source.precision < target.precision)
  let vr := if vr.isVarying && source.isIntegral && widening then full source else vr
  if !vr.isBounded || vr.isSymbolic then return varying
  else if vr.usesInfinity && !(vr.isRange && widening && target.overflowUndefined) then
    return varying
  else match vr.constBounds? source with
    | none => return varying
    | some (lo, hi) => do
        if ← convertsExactly source target vr (lo, hi) then
          let min ← convertEnd target .negInf vr.min lo
          let max ← convertEnd target .posInf vr.max hi
          canonical target (.ofKind vr.kind min max)
        else return varying

/-- Magnitude of a bound. -/
def absBound? (ty : ScalarType) (b : Bound) : Strict (Option Bound) :=
  match b with
  | .negInf | .posInf => return some .posInf
  | .const c =>
      if b.isMin ty then return some (.positiveExtreme ty) else do return some (.const (← abs c))
  | .symbolic _ _ => return none

/-- The interval of magnitudes between the magnitudes of two ends. -/
def absInterval (ty : ScalarType) (hasZero : Bool) (min max : Bound) : Strict ValueRange :=
  let swapped := Bound.compare ty min max == .greater
  let (lo, hi) :=
    if hasZero then (.const 0, if swapped then min else max)
    else if swapped then (max, min)
    else (min, max)
  if (Bound.compare ty lo hi).isLe then canonical ty (.inside lo hi) else return varying

/-- Magnitude of a range. -/
def absolute (ty : ScalarType) (vr : ValueRange) : Strict ValueRange :=
  if !ty.signed || vr.isNonnegative ty then return vr
  else if !vr.isRange || vr.isSymbolic then return varying
  else if !ty.overflowUndefined && vr.min.isMin ty then return varying
  else do
    match ← absBound? ty vr.min, ← absBound? ty vr.max with
    | some min, some max =>
        if min = .posInf ∧ max = .posInf then return varying
        else absInterval ty (vr.includesZero? ty == some true) min max
    | _, _ => return varying

/-- Magnitude or conversion of a range that is not split. -/
def absOrConvert (op : UnaryOp) (source target : ScalarType) (vr : ValueRange) :
    Strict ValueRange :=
  if op = .abs then absolute target vr else convert source target vr

/-- Magnitude or conversion of a range. Complements of intervals are split. -/
def unaryOfSplit (op : UnaryOp) (source target : ScalarType) (vr : ValueRange) :
    Strict ValueRange :=
  if source.isPointer then absOrConvert op source target vr
  else do
    match ← splitAnti? source vr with
    | some (first, some second) =>
        return .meet target (← absOrConvert op source target first)
          (← absOrConvert op source target second)
    | some (first, none) => absOrConvert op source target first
    | none => absOrConvert op source target vr

/-- A range for the operator's result on a value of the range. -/
def unary (op : UnaryOp) (source target : ScalarType) (vr : ValueRange) : Strict ValueRange :=
  if !source.isTracked || !target.isTracked then return varying
  else if vr.isUndefined then return undefined
  else match op with
    | .negate => binary .sub target (singleton 0) vr
    | .bitNot => binary .sub target (singleton (-1)) vr
    | .truthNot | .floatToInt | .intToFloat => foldSingle op source target vr
    | .convert => if target.isPointer then return .toPointer source vr
        else unaryOfSplit .convert source target vr
    | .abs => unaryOfSplit .abs source target vr

end RangeFlow.Strict
