/-! # Names, blocks and edges

The parts of a function are known by their numbers.
-/

namespace RangeFlow

/-- Names are numbered in the order of their allocation. -/
abbrev NameId := Nat

/-- Blocks are numbered from the entry block, which is block zero. -/
abbrev BlockId := Nat

/-- Edges are numbered in the order of their source blocks. -/
abbrev EdgeId := Nat

/-- The written form of a name. -/
def nameText (name : NameId) : String := "_" ++ toString name

/-- The written form of a block. -/
def blockText (block : BlockId) : String := "bb" ++ toString block

end RangeFlow
