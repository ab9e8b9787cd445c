import Reckon.Answer
import Reckon.Session.Differentiator
import Reckon.Session.Evaluator

/-!
# Calculators

A calculator is an evaluator and a differentiator that serve one caller after the other on one call
stack, and gives answers where they fail. Only a value too long to be written is a failure here as
well.
-/

namespace Reckon

structure Calculator where
  evaluator : Evaluator
  differentiator : Differentiator
  stack : CallStack

namespace Calculator

def new (stack : CallStack := .boundless) : Calculator :=
  ⟨.new .rad, .new, stack⟩

/-- What a call on a calculator does. -/
abbrev Call := StateM Calculator

/-- Runs a call on the evaluator. -/
def onEvaluator {α : Type} (call : Evaluator.Call α) : Call (Except Failure α) := fun c =>
  let (r, e) := call.run c.evaluator
  (r, { c with evaluator := e })

/-- Runs a call on the differentiator. -/
def onDifferentiator {α : Type} (call : Differentiator.Call α) : Call (Except Failure α) :=
  fun c =>
    let (r, d) := call.run c.differentiator
    (r, { c with differentiator := d })

/-- What a call comes to when every failure is answered; `unforeseen` is the message for those that
no rule foresees. -/
def answer {α : Type} (unforeseen : String) (r : Except Failure α) : Answer α :=
  match Answer.ofCall r with
  | .ok a => a
  | .error _ => .problem unforeseen "INTERNAL"

/-- What is answered to a formula. A unit that is none and an integer too long to be written are the
faults of what is given besides the formula. -/
def valueAnswer : Except Failure Decimal → Except Failure ValueAnswer
  | .ok a => a.display.map .result
  | .error (.unknownUnit name) =>
    .ok (.problem (Failure.unknownUnit name).message "INVALID_INPUT")
  | .error .integerTooLong => .ok (.problem Failure.integerTooLong.message "INVALID_INPUT")
  | .error f => .ok (answer "Unexpected evaluation error" (.error f))

/-- The value of a formula. With a unit a new evaluator is asked, and the calculator's own one is
left alone. -/
def evaluate (bindings : Bindings) (unit : Option String) (s : List Char) :
    Call (Except Failure ValueAnswer) := do
  let stack := (← get).stack
  match unit with
  | none => return valueAnswer (← onEvaluator (Evaluator.evaluate bindings s stack))
  | some name =>
    return valueAnswer (AngleUnit.read name >>= fun unit =>
      ((Evaluator.evaluate bindings s stack).run (.new unit)).1)

/-- The derivatives of a formula. -/
def differentiate (targets : Targets) (s : List Char) : Call DerivativesAnswer := do
  return answer "Unexpected differentiation error"
    (← onDifferentiator (Differentiator.derivatives targets s (← get).stack))

/-- What is wrong with a formula, if anything is. -/
def findFault (s : List Char) : Call (Option String) := do
  match answer "Unexpected validation error" (← onEvaluator (Evaluator.tree s (← get).stack)) with
  | .result _ => return none
  | .problem message _ => return some message

end Calculator

end Reckon
