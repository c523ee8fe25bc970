import RangeFlow.Analysis.Result

/-! # Sessions

A session analyses functions and keeps the last result for each function name.
-/

namespace RangeFlow

/-- An analysis and the results it has given so far. -/
structure Session where
  pass : Pass
  /-- The results by function name, ascending and without repetitions. -/
  results : List (String × RangeResult)

namespace Session

/-- A session without results. -/
def start (pass : Pass) : Session := ⟨pass, []⟩

/-- Put a result in its place, instead of an older one for the same name. -/
def insertResult (result : RangeResult) : List (String × RangeResult) →
    List (String × RangeResult)
  | [] => [(result.function, result)]
  | (name, old) :: rest =>
      if result.function < name then (result.function, result) :: (name, old) :: rest
      else if result.function = name then (name, result) :: rest
      else (name, old) :: insertResult result rest

/-- Analyse a function and keep the result. -/
def analyze (session : Session) (f : Function) : Except Error (Session × Function) := do
  let (g, result) ← session.pass.run f
  return ({ session with results := insertResult result session.results }, g)

/-- Analyse functions and keep the results. -/
def analyzeAll (session : Session) (fs : List Function) :
    Except Error (Session × List Function) :=
  fs.foldlM (fun (session, done) f => do
    let (session, g) ← session.analyze f
    return (session, done ++ [g])) (session, [])

/-- The result for a function name. -/
def result? (session : Session) (name : String) : Option RangeResult := session.results.lookup name

/-- The range of a name of a function. -/
def range? (session : Session) (function : String) (name : NameId) : Option ValueRange :=
  (session.result? function).bind (·.range? name)

/-- The names of the functions with results, ascending. -/
def functionNames (session : Session) : List String := session.results.map Prod.fst

/-- Forget all results. -/
def clear (session : Session) : Session := { session with results := [] }

end Session

end RangeFlow
