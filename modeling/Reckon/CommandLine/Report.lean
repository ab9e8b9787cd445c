import Reckon.Answer
import Reckon.Session.Differentiator
import Reckon.Session.Evaluator

/-!
# Reports

Answers as the command line prints them: for people, or for programs as a line of JSON.
-/

namespace Reckon

/-- The value of a formula as it is displayed. Only reading and evaluating make problems. -/
def Evaluator.answer (bindings : Bindings) (s : List Char) (stack : CallStack := .boundless) :
    Evaluator.Call ValueAnswer := do
  match ← MonadExcept.ofExcept (Answer.ofCall (← ExceptT.lift (evaluate bindings s stack).run)) with
  | .result a => return .result (← MonadExcept.ofExcept a.display)
  | .problem message code => return .problem message code

def Differentiator.answer (targets : Targets) (s : List Char) (stack : CallStack := .boundless) :
    Differentiator.Call DerivativesAnswer := do
  MonadExcept.ofExcept (Answer.ofCall (← ExceptT.lift (derivatives targets s stack).run))

namespace CommandLine

inductive Style where
  | people | programs
  deriving DecidableEq

def problemLine (message : String) : String :=
  s!"Error: {message}"

def valueLines (style : Style) (a : ValueAnswer) : List String :=
  match style, a with
  | .programs, a => [a.json]
  | .people, .result value => [value]
  | .people, .problem message _ => [problemLine message]

def derivativesLines (style : Style) (a : DerivativesAnswer) : List String :=
  match style, a with
  | .programs, a => [a.json]
  | .people, .result pairs => pairs.map fun (x, d) => s!"d/d{x}: {d}"
  | .people, .problem message _ => [problemLine message]

end CommandLine

end Reckon
