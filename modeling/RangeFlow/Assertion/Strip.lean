import RangeFlow.Program.DefChain

/-! # Removing assertions

Assertions are taken out again, and every use reads the name that the assertion was about.
-/

namespace RangeFlow.Function

/-- The assertions of the function: the new name and the name it is about. -/
def assertionSubjects (f : Function) : List (NameId × NameId) :=
  f.blocks.flatMap fun b => b.stmts.filterMap fun
    | .assign dest (.assert subject _) => some (dest, subject)
    | _ => none

/-- The name behind a chain of assertions. -/
def assertionRoot (subjects : List (NameId × NameId)) (name : NameId) : NameId :=
  chainEnd (subjects.lookup ·) subjects.length name

/-- The block without assertions, with names in place of those it reads. -/
def stripBlock (root : NameId → NameId) (b : Block) : Block :=
  { b with
    phis := b.phis.map fun phi =>
      { phi with operands := phi.operands.map fun o => { o with value := o.value.rename root } }
    stmts := (b.stmts.filter fun stmt => !stmt.isAssert).map (Stmt.rename root)
    terminator := b.terminator.rename root }

/-- Take all assertions out, and tell how many there were. -/
def stripAssertions (f : Function) : Function × Nat :=
  let subjects := f.assertionSubjects
  if subjects.isEmpty then (f, 0)
  else ({ f with blocks := f.blocks.map (stripBlock (assertionRoot subjects)) }, subjects.length)

end RangeFlow.Function
