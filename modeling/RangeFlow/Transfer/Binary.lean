import RangeFlow.Range.Lattice
import RangeFlow.Transfer.Bits

/-! # Ranges of binary operators

`ValueRange.binary` gives a range for the result of an operator on values of two ranges. Integer
complements are split into the intervals on their two sides; pointers are only told apart from the
null pointer.
-/

namespace RangeFlow.ValueRange

/-- The intervals below and above the interval that a range leaves out, those of them that are
    not empty. There is no answer for ranges of another kind and where nothing is left. -/
def splitAnti? (ty : ScalarType) (vr : ValueRange) : Option (ValueRange × Option ValueRange) :=
  match vr.extent with
  | .outside _ _ =>
      match vr.constBounds? ty with
      | none => none
      | some (lo, hi) =>
          let below := range (.const ty.minValue) (.const (lo - 1))
          let above := range (.const (hi + 1)) (.const ty.maxValue)
          if ty.minValue < lo then
            some (below, if hi < ty.maxValue then some above else none)
          else if hi < ty.maxValue then some (above, none)
          else none
  | _ => none

/-- The normal form of an extent whose ends are in order. Ends that are out of order, or that are
    ends of the type or infinities on both sides, give no knowledge. -/
def finish (ty : ScalarType) (extent : Extent) : ValueRange :=
  if (extent.min.isMin ty || extent.min.isInfinity) &&
      (extent.max.isMax ty || extent.max.isInfinity) then varying
  else if (Bound.compare ty extent.min extent.max).isLe then canonical ty extent
  else varying

/-- The operator on pointers: only null and not null are told apart. -/
def pointerBinary (op : BinaryOp) (ty : ScalarType) (a b : ValueRange) : ValueRange :=
  let nonnull0 := a.excludesZero ty
  let nonnull1 := b.excludesZero ty
  let (isNonnull, isNull) :=
    match op with
    | .min | .max => (nonnull0 && nonnull1, a.isNull && b.isNull)
    | .pointerPlus => (nonnull0 || nonnull1, a.isNull && b.isNull)
    | .bitAnd => (nonnull0 && nonnull1, a.isNull || b.isNull)
    | _ => (false, false)
  if isNonnull then nonnull else if isNull then null else varying

/-- The operator on two bounds that mention no name. If overflow is undefined, a result outside
    the type, or one that comes from an infinity, is an infinity of the result's sign. -/
def boundBinary? (op : BinaryOp) (ty : ScalarType) (a b : Bound) : Option Bound := do
  let x ← a.concrete? ty
  let y ← b.concrete? ty
  if !ty.overflowUndefined then
    let exact ← op.applyExact x y ty
    if ty.fits exact then some (.const exact) else none
  else if op == .mul && ((x == 0 && !a.isInfinity) || (y == 0 && !b.isInfinity)) then
    some (.const 0)
  else
    let exact ← op.applyExact x y ty
    if !a.isInfinity && !b.isInfinity && ty.fits exact then
      some (.const exact)
    else if a.isInfinity && b.isInfinity &&
        ((op == .add && x.sign != y.sign) || (op == .sub && x.sign == y.sign)) then
      none
    else if (a.isInfinity || b.isInfinity) && (op.isDivision || op == .shr) then
      none
    else
      let positive : Bool :=
        match op with
        | .mul => x.sign == y.sign
        | .add => if 0 ≤ x then b != .negInf else b == .posInf
        | .sub => if 0 ≤ x then b != .posInf else b == .negInf
        | .shl | .shr => decide (0 ≤ x)
        | _ => true
      some (if positive then .posInf else .negInf)

/-- On which side of the type a number lies. -/
inductive Side where
  | below
  | inside
  | above
  deriving Repr, DecidableEq

/-- On which side of the type a number lies. -/
def sideOf (ty : ScalarType) (value : Int) : Side :=
  if value < ty.minValue then .below else if ty.maxValue < value then .above else .inside

/-- The exact ends of a sum or difference of two intervals. -/
def sumEnds (add : Bool) (a b : Int × Int) : Int × Int :=
  if add then (a.1 + b.1, a.2 + b.2) else (a.1 - b.2, a.2 - b.1)

/-- The extent of the numbers between two ends, taken modulo the type's size. If just one end
    leaves the type, the values between the wrapped ends are the ones that are missed. -/
def wrapEnds? (ty : ScalarType) (lo hi : Int) : Option Extent :=
  let low := ty.wrap lo
  let high := ty.wrap hi
  if sideOf ty lo = sideOf ty hi then some (.inside (.const low) (.const high))
  else if sideOf ty lo = .below ∧ sideOf ty hi = .above then none
  else if high = ty.maxValue ∨ low = ty.minValue then none
  else if low - 1 < high + 1 then none
  else some (.outside (.const (high + 1)) (.const (low - 1)))

/-- A number as an end of a range, where an end outside the type is an extreme of it. -/
def saturate (ty : ScalarType) (value : Int) : Bound :=
  match sideOf ty value with
  | .below => .negativeExtreme ty
  | .above => .positiveExtreme ty
  | .inside => .const value

/-- Sum or difference of two intervals. An infinity among the ends stays one. -/
def sum (add : Bool) (ty : ScalarType) (a b : ValueRange) : ValueRange :=
  match a.extent, b.extent, a.constBounds? ty, b.constBounds? ty with
  | .inside _ _, .inside _ _, some ends0, some ends1 =>
      let (lo, hi) := sumEnds add ends0 ends1
      if ty.wraps then
        match wrapEnds? ty lo hi with
        | some extent => finish ty extent
        | none => varying
      else
        let (lowInf, highInf) :=
          if add then (b.min == .negInf, b.max == .posInf)
          else (b.max == .posInf, b.min == .negInf)
        let min :=
          if ty.overflowUndefined && (a.min == .negInf || lowInf) then .negInf else saturate ty lo
        let max :=
          if ty.overflowUndefined && (a.max == .posInf || highInf) then .posInf else saturate ty hi
        finish ty (.inside min max)
  | _, _, _, _ => varying

/-- The operator on the ends of two ranges, each lower end with each upper end; the results span
    the range. -/
def crossProducts (op : BinaryOp) (ty : ScalarType) (a b : ValueRange) : ValueRange :=
  let pairs :=
    [(a.min, b.min)] ++
    (if b.min = b.max then [] else [(a.min, b.max)]) ++
    (if a.min = a.max then [] else [(a.max, b.min)]) ++
    (if a.min = a.max ∨ b.min = b.max then [] else [(a.max, b.max)])
  match pairs.mapM fun (x, y) => boundBinary? op ty x y with
  | some (first :: rest) =>
      let min := rest.foldl (fun m v => if Bound.compare ty v m == .less then v else m) first
      let max := rest.foldl (fun m v => if Bound.compare ty v m == .greater then v else m) first
      finish ty (.inside min max)
  | _ => varying

/-- An unsigned interval moved down by the type's size if that brings it closer to zero. -/
def recentre (ty : ScalarType) (ends : Int × Int) : Int × Int :=
  if !ty.signed && decide (ty.size < ends.1 + ends.2) then (ends.1 - ty.size, ends.2 - ty.size)
  else ends

/-- The products of the ends of two intervals, where they all fit a wide word. -/
def endProducts? (a b : Int × Int) : Option (List Int) :=
  [Wide.mul? a.1 b.1, Wide.mul? a.1 b.2, Wide.mul? a.2 b.1, Wide.mul? a.2 b.2].mapM id

/-- Product of two intervals modulo the type's size. -/
def wrappingProduct (ty : ScalarType) (a b : Int × Int) : ValueRange :=
  match endProducts? (recentre ty a) (recentre ty b) with
  | some products =>
      let lo := products.foldl Min.min Wide.greatest
      let hi := products.foldl Max.max Wide.least
      if ty.size - 1 < hi - lo then varying
      else canonical ty (.inside (.const (ty.wrap lo)) (.const (ty.wrap hi)))
  | none => varying

/-- Product of two ranges. -/
def product (ty : ScalarType) (a b : ValueRange) : ValueRange :=
  match ty.wraps && a.isRange && b.isRange, a.constBounds? ty, b.constBounds? ty with
  | true, some ends0, some ends1 => wrappingProduct ty ends0 ends1
  | _, _, _ => if a.isAnti || b.isAnti then varying else crossProducts .mul ty a b

/-- Does every left shift of an end by an end stay in the type? -/
def shiftsFit (ty : ScalarType) (a b : Int × Int) : Bool :=
  [(a.1, b.1), (a.1, b.2), (a.2, b.1), (a.2, b.2)].all fun (x, n) =>
    (BinaryOp.shl.applyExact x n ty).any ty.fits

/-- Left or right shift of a range. A left shift by one amount is a wrapping product; one by
    several amounts is followed only where nothing is shifted out. -/
def shift (left : Bool) (ty : ScalarType) (a b : ValueRange) : ValueRange :=
  match b.isRange && !b.usesInfinity, b.constBounds? ty with
  | true, some (lo1, hi1) =>
      if lo1 < 0 ∨ (ty.precision : Int) ≤ hi1 then varying
      else if !left then crossProducts .shr ty a b
      else if lo1 = hi1 then
        product ty.wrapping a (singleton (ty.wrapping.wrap (twoPow lo1.toNat)))
      else
        match a.isRange && !a.usesInfinity, a.constBounds? ty with
        | true, some ends0 =>
            if shiftsFit ty ends0 (lo1, hi1) then crossProducts .shl ty a b else varying
        | _, _ => varying
  | _, _ => varying

/-- Is it an interval without zero? -/
def rangeExcludesZero (ty : ScalarType) (vr : ValueRange) : Bool :=
  vr.isRange && vr.includesZero? ty == some false

/-- The interval of all numbers of at most the magnitude of an end. -/
def absExtent (ty : ScalarType) (vr : ValueRange) : ValueRange :=
  match vr.usesInfinity, vr.constBounds? ty with
  | false, some (lo, hi) =>
      let magnitude : Int := Max.max (lo.natAbs : Int) (hi.natAbs : Int)
      if ty.fits magnitude && ty.fits (-magnitude) then
        canonical ty (.inside (.const (-magnitude)) (.const magnitude))
      else varying
  | _, _ => varying

/-- Quotient by a divisor that is not negative, zero apart: no further from zero than the
    dividend. -/
def quotientTowardsZero (ty : ScalarType) (a : ValueRange) : ValueRange :=
  let zero := Bound.const 0
  let max? :=
    match Bound.compare ty a.max zero with
    | .less => some zero
    | .equal | .greater => some a.max
    | .notEqual | .unknown => none
  let min? :=
    match Bound.compare ty a.min zero with
    | .greater => some zero
    | .equal | .less => some a.min
    | .notEqual | .unknown => none
  match min?, max? with
  | some min, some max => finish ty (.inside min max)
  | _, _ => varying

/-- Quotient of a dividend that is an interval without names. -/
def quotientOfInterval (op : BinaryOp) (ty : ScalarType) (a b : ValueRange) : ValueRange :=
  if b.rangeExcludesZero ty then crossProducts op ty a b
  else if !ty.signed || b.isNonnegative ty then quotientTowardsZero ty a
  else absExtent ty a

/-- Quotient of two ranges. A dividend that is no interval without names counts as any value, if
    the divisor is one without zero. -/
def quotient (op : BinaryOp) (ty : ScalarType) (a b : ValueRange) : ValueRange :=
  if a.isRange && !a.isSymbolic then quotientOfInterval op ty a b
  else if b.rangeExcludesZero ty && !b.isSymbolic then quotientOfInterval op ty (full ty) b
  else varying

/-- The greatest magnitude of a remainder by a divisor between two ends. -/
def remainderLimit (ends : Int × Int) : Int := Max.max (ends.1.natAbs : Int) ends.2 - 1

/-- Remainder of two ranges. It has the sign of the dividend. -/
def remainder (ty : ScalarType) (a b : ValueRange) : ValueRange :=
  match b.rangeExcludesZero ty && !b.min.isMin ty, b.constBounds? ty with
  | true, some ends =>
      let limit := remainderLimit ends
      let min := if !ty.signed || a.isNonnegative ty then 0 else -limit
      finish ty (.inside (.const min) (.const limit))
  | _, _ => varying

/-- The lesser of two bounds, if they compare. -/
def lesser? (ty : ScalarType) (a b : Bound) : Option Bound :=
  match Bound.compare ty a b with
  | .less | .equal => some a
  | .greater => some b
  | .notEqual | .unknown => none

/-- The greater of two bounds, if they compare. -/
def greater? (ty : ScalarType) (a b : Bound) : Option Bound :=
  match Bound.compare ty a b with
  | .greater | .equal => some a
  | .less => some b
  | .notEqual | .unknown => none

/-- The ends of a minimum or maximum. One interval without names bounds it on one side. -/
def extremumEnds? (least : Bool) (ty : ScalarType) (a b : ValueRange) : Option (Bound × Bound) :=
  let usable (vr : ValueRange) := vr.isRange && !vr.isSymbolic
  let oneSided (vr : ValueRange) :=
    if least then (.const ty.minValue, vr.max) else (vr.min, .const ty.maxValue)
  match usable a, usable b with
  | true, true =>
      let pick := if least then lesser? ty else greater? ty
      match pick a.min b.min, pick a.max b.max with
      | some min, some max => some (min, max)
      | _, _ => none
  | true, false => some (oneSided a)
  | false, true => some (oneSided b)
  | false, false => none

/-- Minimum or maximum of two ranges. -/
def extremum (least : Bool) (ty : ScalarType) (a b : ValueRange) : ValueRange :=
  match extremumEnds? least ty a b with
  | some (min, max) => finish ty (.inside min max)
  | none => varying

/-- The ends of a conjunction: bits that both sides must have, and bits that both may have, cut
    by the upper ends of sides that are not negative or of two negative sides. -/
def andEnds (ty : ScalarType) (a b : ValueRange) : Int × Int :=
  let bits0 := a.knownBits ty
  let bits1 := b.knownBits ty
  let ends0 := if bits0.known then a.constBounds? ty else none
  let ends1 := if bits1.known then b.constBounds? ty else none
  let most := ty.ofBits (bits0.may &&& bits1.may)
  let most :=
    match ends0, ends1 with
    | some (_, hi0), some (_, hi1) =>
        if hi0 < 0 ∧ hi1 < 0 then Min.min (Min.min most hi0) hi1 else most
    | _, _ => most
  let cut (most : Int) (ends : Option (Int × Int)) :=
    match ends with
    | some (lo, hi) => if 0 ≤ lo then Min.min most hi else most
    | none => most
  (ty.ofBits (bits0.must &&& bits1.must), cut (cut most ends0) ends1)

/-- The ends of a disjunction: bits that some side must have, and bits that some side may have,
    cut by the lower ends of negative sides or of two sides that are not negative. -/
def orEnds (ty : ScalarType) (a b : ValueRange) : Int × Int :=
  let bits0 := a.knownBits ty
  let bits1 := b.knownBits ty
  let ends0 := if bits0.known then a.constBounds? ty else none
  let ends1 := if bits1.known then b.constBounds? ty else none
  let least := ty.ofBits (bits0.must ||| bits1.must)
  let least :=
    match ends0, ends1 with
    | some (lo0, _), some (lo1, _) =>
        if 0 ≤ lo0 ∧ 0 ≤ lo1 then Max.max (Max.max least lo0) lo1 else least
    | _, _ => least
  let cut (least : Int) (ends : Option (Int × Int)) :=
    match ends with
    | some (lo, hi) => if hi < 0 then Max.max least lo else least
    | none => least
  (cut (cut least ends0) ends1, ty.ofBits (bits0.may ||| bits1.may))

/-- The ends of an exclusive disjunction: bits that one side must and the other cannot have, and
    bits not known to be equal on both sides. -/
def xorEnds (ty : ScalarType) (a b : ValueRange) : Int × Int :=
  let bits0 := a.knownBits ty
  let bits1 := b.knownBits ty
  let absent (bits : Nat) := ty.mask ^^^ bits
  let ones := (bits0.must &&& absent bits1.may) ||| (bits1.must &&& absent bits0.may)
  let zeros := (bits0.must &&& bits1.must) ||| absent (bits0.may ||| bits1.may)
  (ty.ofBits ones, ty.ofBits (absent zeros))

/-- A bitwise operator on two ranges. The ends of an exclusive disjunction count only if they do
    not have the sign bit the wrong way round. -/
def bitwise (op : BinaryOp) (ty : ScalarType) (a b : ValueRange) : ValueRange :=
  match op with
  | .bitAnd =>
      let (min, max) := andEnds ty a b
      finish ty (.inside (.const min) (.const max))
  | .bitOr =>
      let (min, max) := orEnds ty a b
      finish ty (.inside (.const min) (.const max))
  | _ =>
      let (min, max) := xorEnds ty a b
      if min < 0 ∨ 0 ≤ max then finish ty (.inside (.const min) (.const max)) else varying

/-- Does the operator make something of a range without information on one side? -/
def toleratesPartial (op : BinaryOp) : Bool :=
  op == .bitAnd || op == .bitOr || op == .truncMod || op == .min || op == .max || op.isDivision

/-- The operator on two ranges that are not split. -/
def integerBinary (op : BinaryOp) (ty : ScalarType) (a b : ValueRange) : ValueRange :=
  if a.isUndefined && b.isUndefined then undefined
  else
    let a := if a.isUndefined then varying else a
    let b := if b.isUndefined then varying else b
    if !toleratesPartial op &&
        (a.isVarying || b.isVarying || a.kind != b.kind || a.isSymbolic || b.isSymbolic) then
      varying
    else match op with
      | .add => sum true ty a b
      | .sub => sum false ty a b
      | .mul => product ty a b
      | .shl => shift true ty a b
      | .shr => shift false ty a b
      | .truncDiv | .floorDiv | .ceilDiv | .roundDiv | .exactDiv => quotient op ty a b
      | .truncMod => remainder ty a b
      | .min => extremum true ty a b
      | .max => extremum false ty a b
      | .bitAnd | .bitOr | .bitXor => bitwise op ty a b
      | .pointerPlus => varying

/-- The operator with the second side split into intervals. -/
def binaryOfSplitRight (op : BinaryOp) (ty : ScalarType) (a b : ValueRange) : ValueRange :=
  match splitAnti? ty b with
  | some (first, some second) =>
      meet ty (integerBinary op ty a first) (integerBinary op ty a second)
  | some (first, none) => integerBinary op ty a first
  | none => integerBinary op ty a b

/-- A range for the operator's result on a value of each range. -/
def binary (op : BinaryOp) (ty : ScalarType) (a b : ValueRange) : ValueRange :=
  if !ty.isTracked then varying
  else if ty.isPointer then pointerBinary op ty a b
  else match splitAnti? ty a with
    | some (first, some second) =>
        meet ty (binaryOfSplitRight op ty first b) (binaryOfSplitRight op ty second b)
    | some (first, none) => binaryOfSplitRight op ty first b
    | none => binaryOfSplitRight op ty a b

end RangeFlow.ValueRange
