import RangeFlow.Analysis.Config
import RangeFlow.Program.Function
import RangeFlow.Transfer.Query

/-! # Tables of ranges

The ranges of the names of a function while the analysis runs. A name without an entry has the
range that its origin gives it.
-/

namespace RangeFlow

/-- What is known about the names of a function. -/
structure RangeTable where
  /-- The names with the types that the configuration gives them. -/
  names : List NameInfo
  /-- The entries made so far. -/
  ranges : List (Option ValueRange)
  deriving Repr, DecidableEq

namespace RangeTable

/-- The table without entries. -/
def ofFunction (f : Function) (config : Config) : RangeTable where
  names := f.names.map fun info => { info with ty := config.effectiveType info.ty }
  ranges := List.replicate f.nameCount none

/-- Number of places for entries. -/
def size (table : RangeTable) : Nat := table.ranges.length

/-- The entry of a name. -/
def get? (table : RangeTable) (name : NameId) : Option ValueRange := (table.ranges[name]?).getD none

/-- The type of a name; names that are not in the table are not followed. -/
def typeOf (table : RangeTable) (name : NameId) : ScalarType :=
  ((table.names[name]?).map NameInfo.ty).getD (.float false)

/-- The range of a name before any entry: parameters may hold any value, other names none yet. -/
def initial (table : RangeTable) (name : NameId) : ValueRange :=
  let ty := table.typeOf name
  if !ty.isTracked then .varying
  else match (table.names[name]?).map NameInfo.origin with
    | some (.param _ nonnull) => if nonnull && ty.isPointer then .nonnull else .varying
    | none => .varying
    | some .uninit => .undefined
    | some .defined => .undefined

/-- The range of a name. -/
def rangeOf (table : RangeTable) (name : NameId) : ValueRange :=
  (table.get? name).getD (table.initial name)

/-- The table as an answer to questions. -/
def query (table : RangeTable) : Query := ⟨table.rangeOf, table.typeOf⟩

/-- The table with an entry, and with places up to it. -/
def set (table : RangeTable) (name : NameId) (vr : ValueRange) : RangeTable :=
  let places := table.ranges ++ List.replicate (name + 1 - table.size) none
  { table with ranges := places.set name (some vr) }

/-- The table with the initial range of a name as its entry, unless there is one. -/
def touch (table : RangeTable) (name : NameId) : RangeTable :=
  table.set name (table.rangeOf name)

/-- Store a new range for a name, and tell whether that changes its entry. What may be any value
    stays so, and what had a value does not lose it. -/
def update (table : RangeTable) (name : NameId) (new : ValueRange) : RangeTable × Bool :=
  let old := table.rangeOf name
  if new = old then (table.touch name, false)
  else if new.isUndefined || old.isVarying then (table.set name .varying, true)
  else (table.set name new, true)

/-- The table in which a name may hold any value. -/
def setVarying (table : RangeTable) (name : NameId) : RangeTable :=
  if name < table.size then table.set name .varying else table

/-- The ranges of all names. -/
def toList (table : RangeTable) : List ValueRange :=
  (List.range table.size).map table.rangeOf

end RangeTable

end RangeFlow
