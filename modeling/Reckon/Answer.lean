import Reckon.Failure
import Reckon.Text.Quoted

/-!
# Answers

An answer is a result or a problem with its message and code: no call that answers fails for a
reason that a rule of the calculator foresees. An answer is shown to programs as a line of JSON,
and in a debugger as `shown` has it.
-/

namespace Reckon

inductive Answer (α : Type) where
  | result (a : α)
  | problem (message code : String)

/-- The value of a formula, as it is displayed. -/
abbrev ValueAnswer := Answer String

/-- Derivatives with the variables they belong to. -/
abbrev DerivativesAnswer := Answer (List (String × String))

namespace Answer

/-- What a call comes to; a failure that no rule foresees stays one. -/
def ofCall {α : Type} : Except Failure α → Except Failure (Answer α)
  | .ok a => .ok (result a)
  | .error f =>
    match f.code with
    | some code => .ok (problem f.message code)
    | none => .error f

/-- Whether the answer is a result. -/
def isResult {α : Type} : Answer α → Bool
  | result _ => true
  | problem .. => false

/-! ### Programs -/

def jsonText (s : String) : String :=
  String.ofList (Text.jsonString s.toList)

def jsonList (l : List String) : String :=
  "[" ++ String.intercalate ", " (l.map jsonText) ++ "]"

/-- An object with the given fields, whose values are texts of JSON. -/
def jsonObject (fields : List (String × String)) : String :=
  let field := fun (name, value) => jsonText name ++ ": " ++ value
  "\x7b" ++ String.intercalate ", " (fields.map field) ++ "\x7d"

def problemFields (message code : String) : List (String × String) :=
  [("ok", "false"), ("error", jsonText message), ("error_code", jsonText code)]

end Answer

namespace ValueAnswer

open Answer

def json : ValueAnswer → String
  | .result value => jsonObject [("ok", "true"), ("result", jsonText value)]
  | .problem message code => jsonObject (problemFields message code)

end ValueAnswer

namespace DerivativesAnswer

open Answer

def json : DerivativesAnswer → String
  | .result pairs =>
    jsonObject [("ok", "true"), ("derivatives", jsonList (pairs.map (·.2))),
      ("variables", jsonList (pairs.map (·.1)))]
  | .problem message code => jsonObject (problemFields message code)

end DerivativesAnswer

namespace Answer

/-! ### Debuggers -/

def quoted (s : String) : String :=
  String.ofList (Text.quote s.toList)

def quotedList (l : List String) : String :=
  String.ofList (Text.quoteList l)

def shownProblem (kind message code : String) : String :=
  let message := quoted message
  let code := quoted code
  s!"{kind}(ok=False, error={message}, error_code={code})"

end Answer

namespace ValueAnswer

open Answer

def shown : ValueAnswer → String
  | .result value =>
    let value := quoted value
    s!"EvalResult(ok=True, result={value})"
  | .problem message code => shownProblem "EvalResult" message code

end ValueAnswer

namespace DerivativesAnswer

open Answer

def shown : DerivativesAnswer → String
  | .result pairs =>
    let derivatives := quotedList (pairs.map (·.2))
    let names := quotedList (pairs.map (·.1))
    s!"DiffResult(ok=True, derivatives={derivatives}, variables={names})"
  | .problem message code => shownProblem "DiffResult" message code

end DerivativesAnswer

end Reckon
