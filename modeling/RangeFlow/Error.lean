import RangeFlow.Ident
import RangeFlow.Scalar

/-! # Errors

The reasons for which a type or a function is refused, and their texts.
-/

namespace RangeFlow

/-- Why a type or a function is refused. -/
inductive Error where
  /-- There is no integer type of this many bits. -/
  | unsupportedPrecision (bits : Nat)
  /-- A block that does not exist is mentioned. -/
  | unknownBlock (block : BlockId)
  /-- A name that was never allocated is mentioned. -/
  | unknownName (name : NameId)
  /-- A name has another type than its use asks for. -/
  | typeMismatch (name : NameId) (expected found : ScalarType)
  /-- A function needs an entry block. -/
  | noBlocks (function : String)
  /-- A name has two definitions. -/
  | definedTwice (name : NameId)
  /-- A name is read and has no definition. -/
  | neverDefined (name : NameId)
  /-- A literal is no value of the type it is used at. -/
  | literalMisfit (value : Int) (ty : ScalarType)
  /-- A merge has not as many operands as its block has predecessors. -/
  | phiArity (dest : NameId) (block : BlockId) (operands predecessors : Nat)
  /-- A merge has an operand from a block that is no predecessor. -/
  | phiStranger (dest : NameId) (block stranger : BlockId)
  /-- A merge has no operand from one of the predecessors. -/
  | phiLacks (dest : NameId) (block predecessor : BlockId)
  /-- A switch case selects no value. -/
  | emptyCase (low high : Int)
  /-- A switch case starts before the end of the case in front of it. -/
  | unsortedCase (low : Int)
  /-- A switch case has an end outside the type of the index. -/
  | caseMisfit (low high : Int) (ty : ScalarType)
  deriving Repr, DecidableEq

/-- The text of an error. -/
def Error.message : Error → String
  | unsupportedPrecision bits => "Unsupported integer precision " ++ toString bits
  | unknownBlock block => "Unknown block " ++ blockText block
  | unknownName name => "Unknown SSA name " ++ nameText name
  | typeMismatch name expected found =>
      "Type mismatch for " ++ nameText name ++ ": expected " ++ toString expected ++
        ", found " ++ toString found
  | noBlocks function => "Function " ++ function ++ " has no blocks"
  | definedTwice name => "SSA name " ++ nameText name ++ " defined more than once"
  | neverDefined name => "SSA name " ++ nameText name ++ " is used but never defined"
  | literalMisfit value ty =>
      "Literal " ++ toString value ++ " does not fit type " ++ toString ty
  | phiArity dest block operands predecessors =>
      "PHI for " ++ nameText dest ++ " in " ++ blockText block ++ " has " ++ toString operands ++
        " operands but the block has " ++ toString predecessors ++ " predecessors"
  | phiStranger dest block stranger =>
      "PHI for " ++ nameText dest ++ " in " ++ blockText block ++ " names " ++
        blockText stranger ++ " which is not a predecessor"
  | phiLacks dest block predecessor =>
      "PHI for " ++ nameText dest ++ " in " ++ blockText block ++
        " lacks an operand from " ++ blockText predecessor
  | emptyCase low high =>
      "Switch case [" ++ toString low ++ ", " ++ toString high ++ "] is empty"
  | unsortedCase low => "Switch cases must be sorted and disjoint at " ++ toString low
  | caseMisfit low high ty =>
      "Switch case [" ++ toString low ++ ", " ++ toString high ++ "] does not fit " ++ toString ty

/-- The integer type of the given precision. -/
def ScalarType.ofPrecision (bits : Nat) (signed : Bool) : Except Error ScalarType :=
  match ScalarType.int? bits signed with
  | some ty => .ok ty
  | none => .error (.unsupportedPrecision bits)

end RangeFlow
