import Reckon.Session.Event
import Reckon.Tree.Value

/-!
# Evaluators

An evaluator keeps the unit of angles and a memory of the formulas that it has read: a formula is
read once and recalled by its prepared text from then on. A failing call keeps what it has read
before it fails. Reading and evaluating run on a call stack, which has room for everything unless
something else is said.
-/

namespace Reckon

/-- The unit with the given name, in letters of any size. -/
def AngleUnit.read (name : String) : Except Failure AngleUnit :=
  let name := String.ofList (Text.lowercase name.toList)
  match AngleUnit.ofName? name with
  | some unit => .ok unit
  | none => .error (.unknownUnit name)

structure Evaluator where
  unit : AngleUnit
  /-- The trees of the prepared texts read since the memory was cleared. -/
  memory : List (List Char × Tree)
  /-- How many formulas have been read. -/
  readCount : Nat
  /-- The prepared texts that have been read, the last one first. -/
  reported : List (List Char)
  /-- What happened, the last event first. -/
  events : List Event

namespace Evaluator

def new (unit : AngleUnit) : Evaluator :=
  ⟨unit, [], 0, [], []⟩

/-- What a call on an evaluator does: it may fail, and it leaves an evaluator in any case. -/
abbrev Call := ExceptT Failure (StateM Evaluator)

def remembered? (e : Evaluator) (key : List Char) : Option Tree :=
  (e.memory.find? fun (k, _) => k = key).map (·.2)

def note (event : Event) : Call Unit :=
  modify fun e => { e with events := event :: e.events }

/-- Counts the text, reports it to whoever listens, and puts its tree into the memory. A listener
takes the text and does nothing else: it neither fails nor calls the evaluator. -/
def remember (key : List Char) (tree : Tree) : Call Unit := do
  modify fun e => { e with readCount := e.readCount + 1 }
  modify fun e => { e with reported := key :: e.reported }
  modify fun e => { e with memory := (key, tree) :: e.memory }

/-- The tree of a formula, recalled, or read inside so many open calls. -/
def treeAt (stack : CallStack) (calls : Nat) (s : List Char) : Call Tree := do
  let key ← MonadExcept.ofExcept (Formula.prepare s)
  match (← get).remembered? key with
  | some tree =>
    note (.recalled key)
    return tree
  | none =>
    note (.readAnew key)
    MonadExcept.ofExcept (Formula.validate key)
    let tree ← MonadExcept.ofExcept (stack.read calls key)
    remember key tree
    return tree

/-- The tree of a formula. -/
def tree (s : List Char) (stack : CallStack := .boundless) : Call Tree :=
  treeAt stack 0 s

/-- The value of a formula. -/
def evaluate [Binary64.Library] (bindings : Bindings) (s : List Char)
    (stack : CallStack := .boundless) : Call Decimal := do
  Formula.evaluateOn stack (treeAt stack) (← get).unit bindings s

def selectUnit (name : String) : Call Unit := do
  let unit ← MonadExcept.ofExcept (AngleUnit.read name)
  modify fun e => { e with unit := unit }

def clear : Call Unit :=
  modify fun e => { e with memory := [] }

end Evaluator

end Reckon
