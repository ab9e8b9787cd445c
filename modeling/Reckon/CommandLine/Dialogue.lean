import Reckon.CommandLine.Report
import Reckon.Text.Piece

/-!
# Dialogues

A dialogue goes line by line: a line is a command or a formula to evaluate. `Dialogue.reply` says
what a line is answered with. Bindings and the unit of angles last until the dialogue ends. The
lines are answered on one call stack.
-/

namespace Reckon.CommandLine

structure Dialogue where
  style : Style
  evaluator : Evaluator
  differentiator : Differentiator
  bindings : Bindings
  stack : CallStack

inductive Command where
  | leave
  | help
  | listBindings
  | selectUnit (name : List Char)
  | bind (text : List Char)
  | differentiate (formula : List Char) (targets : List Char)
  | evaluate (formula : List Char)
  deriving DecidableEq

namespace Command

/-- The command that a line is. A command that lacks what it needs is read as a formula. -/
def read (line : List Char) : Command :=
  let (first, rest) := (Text.cut? [' '] line).getD (line, [])
  let rest := Text.trim rest
  match String.ofList (Text.lowercase first), rest with
  | "quit", _ | "exit", _ => leave
  | "help", _ => help
  | "vars", _ => listBindings
  | "angle", _ :: _ => selectUnit rest
  | "let", _ :: _ => bind rest
  | "diff", _ :: _ =>
    let (formula, targets) := (Text.cut? [' ', 'w', 'r', 't', ' '] rest).getD (rest, [])
    differentiate formula targets
  | _, _ => evaluate line

end Command

def greeting : String :=
  "exprcalc - type 'help' for commands, 'quit' to exit."

def prompt : String :=
  ">>> "

def farewell : String :=
  "Goodbye."

def helpLines : List String := [
  "Enter an expression to evaluate it, for example 2(3+x) or sin(pi/2).",
  "Commands:",
  "  let NAME=VALUE[;NAME=VALUE]  bind variables for this session",
  "  diff EXPR [wrt x;y]         differentiate EXPR",
  "  angle rad|deg|grad          select the angle unit",
  "  vars                        show bound variables",
  "  help                        show this text",
  "  quit                        leave"]

/-- What a line is answered with. -/
inductive Reply where
  | shows (lines : List String)
  | leaves
  deriving DecidableEq

namespace Dialogue

def new (style : Style) (unit : AngleUnit) (stack : CallStack := .boundless) : Dialogue :=
  ⟨style, .new unit, .new, [], stack⟩

/-- What a line does to a dialogue: it may fail, and the dialogue goes on in any case. -/
abbrev Call := ExceptT Failure (StateM Dialogue)

def onEvaluator {α : Type} (call : Evaluator.Call α) : Call α := fun d =>
  let (r, e) := call.run d.evaluator
  (r, { d with evaluator := e })

def onDifferentiator {α : Type} (call : Differentiator.Call α) : Call α := fun d =>
  let (r, e) := call.run d.differentiator
  (r, { d with differentiator := e })

/-- Binds what the text says. -/
def bind (text : List Char) : Call Unit := do
  let new ← MonadExcept.ofExcept (Bindings.read text)
  modify fun d => { d with bindings := d.bindings.update new }

/-- Says nothing if the call succeeds, and what is wrong otherwise. -/
def silently (call : Call Unit) : Call (List String) := do
  match ← ExceptT.lift call.run with
  | .ok _ => return []
  | .error f => return [problemLine f.message]

/-- A binding as it is listed. -/
def bindingLine (x : String) (bound : Bound) : Except Failure String := do
  let value :=
    match ← bound.content with
    | .inl a => a.text
    | .inr s => String.ofList s
  return s!"{x} = {value}"

def obey : Command → Call Reply
  | .leave => return .leaves
  | .help => return .shows helpLines
  | .listBindings => do
    let lines ← MonadExcept.ofExcept ((← get).bindings.mapM fun (x, b) => bindingLine x b)
    return .shows lines
  | .selectUnit name =>
    return .shows (← silently (onEvaluator (Evaluator.selectUnit (String.ofList name))))
  | .bind text => return .shows (← silently (bind text))
  | .differentiate formula targets => do
    let a ← onDifferentiator (Differentiator.answer (.listed targets) formula (← get).stack)
    return .shows (derivativesLines (← get).style a)
  | .evaluate formula => do
    let a ← onEvaluator (Evaluator.answer (← get).bindings formula (← get).stack)
    return .shows (valueLines (← get).style a)

/-- What a line is answered with. An empty line is answered with nothing. -/
def reply (line : List Char) : Call Reply :=
  let line := Text.trim line
  if line.isEmpty then return .shows [] else obey (Command.read line)

/-- The events since the last call, in order, and the dialogue without them. -/
def takeEvents (d : Dialogue) : List Event × Dialogue :=
  (d.evaluator.events.reverse ++ d.differentiator.events.reverse,
    { d with
      evaluator := { d.evaluator with events := [] }
      differentiator := { d.differentiator with events := [] } })

end Dialogue

end Reckon.CommandLine
