import Reckon.CommandLine.Dialogue
import Reckon.CommandLine.Options

/-!
# Outcomes

What the program leaves behind when it ends: what it has printed, what happened meanwhile, and how
it ended. The whole run is a function of the command line and the lines that are typed.
-/

namespace Reckon.CommandLine

def versionText : String :=
  "1.0.0"

structure Outcome where
  output : String
  events : List Event
  /-- The exit status, or the failure that ended the program. -/
  status : Except Failure Nat

/-- What a line of output adds. -/
def printed (lines : List String) : String :=
  String.join (lines.map (· ++ "\n"))

namespace Outcome

/-- The outcome of a call with one answer. -/
def ofAnswer {α : Type} (events : List Event) (lines : Answer α → List String) :
    Except Failure (Answer α) → Outcome
  | .ok a => ⟨printed (lines a), events, .ok (if a.isResult then 0 else 1)⟩
  | .error f => ⟨"", events, .error f⟩

/-- Puts output and events in front of those of an outcome. -/
def after (output : String) (events : List Event) (o : Outcome) : Outcome :=
  ⟨output ++ o.output, events ++ o.events, o.status⟩

end Outcome

/-- The outcome of a dialogue over the lines that are typed. -/
def converse (d : Dialogue) : (lines : List (List Char)) → Outcome
  | [] => ⟨prompt ++ printed ["", farewell], [], .ok 0⟩
  | line :: lines =>
    let (r, d) := (d.reply line).run
    let (events, d) := d.takeEvents
    match r with
    | .ok (.shows shown) => (converse d lines).after (prompt ++ printed shown) events
    | .ok .leaves => ⟨prompt, events, .ok 0⟩
    | .error f => ⟨prompt, events, .error f⟩

namespace Options

def style (o : Options) : Style :=
  if o.json then .programs else .people

/-- Evaluates one formula. -/
def evaluateOnce (o : Options) (formula : List Char) (stack : CallStack := .boundless) : Outcome :=
  let call : Evaluator.Call ValueAnswer := do
    match Bindings.read o.bindings with
    | .ok bindings => Evaluator.answer bindings formula stack
    | .error f => MonadExcept.ofExcept (Answer.ofCall (.error f))
  let (r, e) := call.run (.new o.unit)
  .ofAnswer e.events.reverse (valueLines o.style) r

/-- Differentiates one formula. -/
def differentiateOnce (o : Options) (formula : List Char) (stack : CallStack := .boundless) :
    Outcome :=
  let (r, d) := (Differentiator.answer (.listed o.targets) formula stack).run .new
  .ofAnswer d.events.reverse (derivativesLines o.style) r

/-- What is to be done: one thing at once, or a dialogue. -/
def start (o : Options) (stack : CallStack := .boundless) : Outcome ⊕ Dialogue :=
  if o.version then .inl ⟨printed [versionText], [], .ok 0⟩
  else
    match o.formula, o.differentiate with
    | some formula, _ => .inl (o.evaluateOnce formula stack)
    | none, some formula => .inl (o.differentiateOnce formula stack)
    | none, none => .inr (.new o.style o.unit stack)

/-- The outcome of the program when the given lines are typed. -/
def run (o : Options) (lines : List (List Char)) (stack : CallStack := .boundless) : Outcome :=
  match o.start stack with
  | .inl outcome => outcome
  | .inr d => (converse d lines).after (printed [greeting]) [.dialogueStarted]

/-- The lines about events that the log level lets through. -/
def logLines (o : Options) (events : List Event) : List String :=
  if o.logLevel = .debug then events.map Event.line else []

end Options

end Reckon.CommandLine
