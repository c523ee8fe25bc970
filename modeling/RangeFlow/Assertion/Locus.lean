import RangeFlow.Program.Function

/-! # Where facts hold

A fact about a name is registered at an edge or after a statement. Of two places for the same fact,
one that dominates the other makes the other superfluous.
-/

namespace RangeFlow

/-- A position among the statements of a block. -/
inductive Position where
  /-- In front of the statement with this index. -/
  | before (index : Nat)
  /-- Behind all statements. -/
  | blockEnd
  deriving Repr, DecidableEq

namespace Position

/-- Is the first position not behind the second? -/
def le : Position → Position → Bool
  | before a, before b => decide (a ≤ b)
  | _, blockEnd => true
  | blockEnd, before _ => false

/-- Is the first position in front of the second? -/
def lt : Position → Position → Bool
  | before a, before b => decide (a < b)
  | before _, blockEnd => true
  | blockEnd, _ => false

end Position

/-- A point of a function. -/
structure Point where
  block : BlockId
  position : Position
  deriving Repr, DecidableEq

namespace Point

/-- Does every path to the second point pass the first? -/
def dominates (t : DominatorTree) (a b : Point) : Bool :=
  if a.block = b.block then a.position.le b.position else t.strictlyDominates a.block b.block

/-- Does every path to the second point pass the first, which is another point? -/
def strictlyDominates (t : DominatorTree) (a b : Point) : Bool :=
  if a.block = b.block then a.position.lt b.position else t.strictlyDominates a.block b.block

end Point

/-- The place where a fact becomes known. -/
inductive Locus where
  /-- When control takes an edge. -/
  | edge (id : EdgeId)
  /-- After a statement of a block. -/
  | after (block : BlockId) (index : Nat)
  deriving Repr, DecidableEq

namespace Locus

/-- The point from which a fact holds wherever control goes. On an edge to a block with several
    predecessors there is no such point. -/
def holdsFrom? (f : Function) : Locus → Option Point
  | after block index => some ⟨block, .before (index + 1)⟩
  | edge id =>
      match f.edge? id with
      | some e => if (f.predEdges e.dst).length = 1 then some ⟨e.dst, .before 0⟩ else none
      | none => none

/-- The last point that control passes before the fact becomes known. -/
def reachedAt? (f : Function) : Locus → Option Point
  | after block index => some ⟨block, .before (index + 1)⟩
  | edge id =>
      (f.edge? id).map fun e =>
        if (f.predEdges e.dst).length = 1 then ⟨e.dst, .before 0⟩ else ⟨e.src, .blockEnd⟩

/-- The written form of the place. -/
protected def toString : Locus → String
  | edge id => "edge " ++ toString id
  | after block index => "after " ++ blockText block ++ " " ++ toString index

instance : ToString Locus := ⟨Locus.toString⟩

end Locus

/-- A fact about a name, and the place where it becomes known. -/
structure AssertLocus where
  name : NameId
  predicate : Predicate
  locus : Locus
  deriving Repr, DecidableEq

/-- Does the fact, known at the first place, hold at the second? -/
def Locus.covers (f : Function) (t : DominatorTree) (known wanted : Locus) : Bool :=
  match known.holdsFrom? f, wanted.reachedAt? f with
  | some h, some r => h.dominates t r
  | _, _ => false

/-- The facts registered so far, in the order of their registration. -/
abbrev Registry := List AssertLocus

namespace Registry

/-- Register a fact, unless its place is covered by a place of the same fact. A place of the same
    fact that the new one covers is replaced by it. -/
def insert (f : Function) (t : DominatorTree) (new : AssertLocus) : Registry → Registry
  | [] => [new]
  | old :: rest =>
      if old.name = new.name ∧ old.predicate = new.predicate then
        if old.locus = new.locus || old.locus.covers f t new.locus then old :: rest
        else if new.locus.covers f t old.locus then { old with locus := new.locus } :: rest
        else old :: insert f t new rest
      else old :: insert f t new rest

/-- Register a fact at a place that exists. -/
def register (f : Function) (t : DominatorTree) (registry : Registry) (new : AssertLocus) :
    Registry :=
  if (new.locus.reachedAt? f).isSome then registry.insert f t new else registry

/-- The facts, those about one name together, names in the order of their first fact. -/
def byName (registry : Registry) : List AssertLocus :=
  (registry.map AssertLocus.name).eraseDups.flatMap fun n => registry.filter (·.name == n)

end Registry

end RangeFlow
