import RangeFlow.Program.Function

/-! # Definition chains

Some names only hand on the value of another name. A chain follows them, one definition at a time.
Where every definition comes before its uses a chain passes through no name twice, so the number of
names bounds its length.
-/

namespace RangeFlow

/-- The names met by following `next` from a name, at most `fuel` of them. -/
def chain (next : NameId → Option NameId) : Nat → NameId → List NameId
  | 0, _ => []
  | fuel + 1, name =>
      match next name with
      | some following => following :: chain next fuel following
      | none => []

/-- The last name met by following `next` from a name. -/
def chainEnd (next : NameId → Option NameId) (fuel : Nat) (name : NameId) : NameId :=
  ((chain next fuel name).getLast?).getD name

namespace Function

/-- The name whose value a copy or an assertion hands on. -/
def copySource? (f : Function) (name : NameId) : Option NameId :=
  match f.defRhs? name with
  | some (.assert subject _) => some subject
  | some (.copy (.name source)) => some source
  | _ => none

/-- The name behind all copies and assertions. -/
def stripCopies (f : Function) (name : NameId) : NameId := chainEnd f.copySource? f.nameCount name

/-- The number an operand stands for, if it is a literal behind copies. -/
def literal? (f : Function) : Operand → Option Int
  | .const c => some c
  | .name n =>
      match f.defRhs? (f.stripCopies n) with
      | some (.copy (.const c)) => some c
      | _ => none

/-- The pointer that a conversion to a pointer takes its value from. -/
def castSource? (f : Function) (name : NameId) : Option NameId :=
  match f.defRhs? name with
  | some (.unary .convert (.name source)) =>
      if (f.typeOf source).isPointer then some source else none
  | _ => none

/-- The pointers that a pointer is converted from, one after the other. -/
def castSources (f : Function) (name : NameId) : List NameId :=
  chain f.castSource? f.nameCount name

end Function

end RangeFlow
