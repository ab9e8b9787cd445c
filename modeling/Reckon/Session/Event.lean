import Reckon.Text.Quoted

/-!
# Events

What an engine notes while it works. Someone who asks for details gets one line for each event.
-/

namespace Reckon

inductive Event where
  | recalled (key : List Char)
  | readAnew (key : List Char)
  | settled (passes : Nat)
  | stoppedAfter (passes : Nat)
  | derived (name : String) (formula : List Char) (derivative : String)
  | dialogueStarted
  deriving DecidableEq

namespace Event

/-- The part of the program that notes the event. -/
def origin : Event → String
  | recalled _ | readAnew _ => "evaluator"
  | settled _ | stoppedAfter _ | derived .. => "calculus"
  | dialogueStarted => "cli"

def message : Event → String
  | recalled key =>
    let shown := String.ofList (Text.quote key)
    s!"Cache hit for {shown}"
  | readAnew key =>
    let shown := String.ofList (Text.quote key)
    s!"Cache miss for {shown}, parsing"
  | settled passes => s!"Simplification reached a fixed point after {passes} passes"
  | stoppedAfter passes => s!"Simplification stopped after {passes} passes"
  | derived name formula derivative =>
    let formula := String.ofList formula
    s!"d/d{name} {formula} = {derivative}"
  | dialogueStarted => "Starting interactive session"

def line (e : Event) : String :=
  let origin := e.origin
  let message := e.message
  s!"[DEBUG] exprcalc.{origin}: {message}"

end Event

end Reckon
