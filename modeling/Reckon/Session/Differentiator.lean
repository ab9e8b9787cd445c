import Reckon.Formula.CallStack
import Reckon.Formula.Printer
import Reckon.Session.Event
import Reckon.Simplify.Pass
import Reckon.Text.Piece
import Reckon.Tree.Derivative

/-!
# Differentiators

A differentiator remembers the variables of the formula that it read last. Asked for derivatives,
it reads the formula, simplifies it, and for each variable writes the simplified derivative as a
formula again. All of this runs on a call stack, which has room for everything unless something
else is said.
-/

namespace Reckon

/-- The variables that derivatives are asked for. -/
inductive Targets where
  /-- Every variable of the formula. -/
  | all
  /-- The names in a text with semicolons between them. -/
  | listed (text : List Char)
  | each (names : List (List Char))

namespace Targets

/-- The variable of formulas that have none. -/
def defaultName : String := "x"

/-- The names that are asked for, where the formula has the variables `known`. -/
def resolve (known : List String) : Targets → List (List Char)
  | all | listed [] =>
    if known.isEmpty then [defaultName.toList] else known.map (·.toList)
  | listed text =>
    let names := Text.pieces ';' (Formula.normalize text)
    if names.getLast? = some [] then names.dropLast else names
  | each names => names.map Formula.normalize

/-- Fails unless the text is the name of a variable. -/
def checkName (s : List Char) : Except Failure Unit := do
  if s.isEmpty then throw (.malformed .unnamedVariable)
  Formula.validate s
  if !Formula.isName s then throw (.malformed (.notVariable (String.ofList s)))

end Targets

structure Differentiator where
  /-- The variables of the formula read last. -/
  unknowns : List String
  /-- What happened, the last event first. -/
  events : List Event

namespace Differentiator

def new : Differentiator :=
  ⟨[], []⟩

/-- What a call on a differentiator does: it may fail, and leaves a differentiator in any case. -/
abbrev Call := ExceptT Failure (StateM Differentiator)

def note (event : Event) : Call Unit :=
  modify fun d => { d with events := event :: d.events }

/-- The tree of a formula, whose variables are remembered. -/
def tree (s : List Char) (stack : CallStack := .boundless) : Call Tree := do
  let tree ← MonadExcept.ofExcept (stack.readFormula s)
  modify fun d => { d with unknowns := tree.unknowns }
  return tree

/-- The tree simplified until nothing changes. -/
def simplified (t : Tree) (stack : CallStack := .boundless) : Call Tree := do
  let settled ← MonadExcept.ofExcept (stack.carrying t (Simplify.settle t))
  note (match settled.passes with
    | some n => .settled n
    | none => .stoppedAfter Simplify.maxPasses)
  return settled.tree

/-- The derivative of the simplified tree `t` of the formula `s`, as a formula. -/
def derivative (s : List Char) (t : Tree) (x : String) (stack : CallStack := .boundless) :
    Call String := do
  let d ← simplified (← MonadExcept.ofExcept (stack.carrying t (t.derivative x))) stack
  let written ← MonadExcept.ofExcept (stack.carrying d d.formula)
  let text := String.ofList (Formula.collapseSigns written)
  note (.derived x s text)
  return text

/-- The variables that are asked for with the derivatives of a formula. -/
def derivatives (targets : Targets) (s : List Char) (stack : CallStack := .boundless) :
    Call (List (String × String)) := do
  let t ← simplified (← tree s stack) stack
  let names := targets.resolve (← get).unknowns
  names.forM fun x => MonadExcept.ofExcept (Targets.checkName x)
  names.mapM fun x => do
    let x := String.ofList x
    return (x, ← derivative s t x stack)

end Differentiator

end Reckon
