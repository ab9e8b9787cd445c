import Reckon.Formula.Bindings
import Reckon.Formula.CallStack
import Reckon.Numeric.Apply
import Reckon.Tree.Spine

/-!
# The value of a tree

A variable has the value of what it is bound to. A text that it is bound to is read when the value
is needed, so `evaluate` takes the reader as an argument: reading may keep a memory. Names whose
texts are being evaluated are remembered, and one that is met again is defined in terms of itself.

`valueAt` evaluates on a call stack and tells the reader how many calls are open. On a stack without
a bound this makes no difference, and `valueLevels` leaves it out.
-/

namespace Reckon

namespace Tree

variable {m : Type → Type} [Monad m] [MonadExceptOf Failure m] [Binary64.Library]

/-- The value of a variable; `follow` evaluates the text that it is bound to. -/
def resolve (bindings : Bindings) (resolving : List String) (follow : List Char → m Decimal)
    (x : String) : m Decimal :=
  match namedConstant? x with
  | some a => pure a
  | none =>
    match bindings.lookup? x with
    | none => throw (.undefined (.unbound x))
    | some bound =>
      if resolving.contains x then throw (.undefined (.cyclic x))
      else
        match bound.content with
        | .error f => throw f
        | .ok (.inl a) => pure a
        | .ok (.inr s) =>
          let s := Text.trim s
          if Formula.isLiteral s then
            match Decimal.ofText? s with
            | some a => pure a
            | none => throw (.signal .invalidOperation)
          else follow s

/-- The calls that are open where `levels` levels are left: one for every level that was taken, and
two more for every name on the way. -/
def openCalls (levels : Nat) (resolving : List String) : Nat :=
  (maxDepth + 1 - levels) + 2 * resolving.length

/-- The value of a tree of at most `levels` levels, the texts bound to its variables included, which
`read` reads inside so many open calls. -/
def valueAt (stack : CallStack) (read : (calls : Nat) → List Char → m Tree) (unit : AngleUnit)
    (bindings : Bindings) : (levels : Nat) → (resolving : List String) → Tree → m Decimal
  | 0, resolving, _ => stack.within (openCalls 0 resolving) (throw .tooDeep)
  | levels + 1, resolving, t =>
    stack.within (openCalls (levels + 1) resolving) <|
      match t with
      | number a => pure a
      | var x =>
        let follow (s : List Char) : m Decimal := do
          let tree ← read (openCalls levels (x :: resolving)) s
          valueAt stack read unit bindings levels (x :: resolving) tree
        resolve bindings resolving follow x
      | unary op a => do
        let value ← valueAt stack read unit bindings levels resolving a
        MonadExcept.ofExcept (op.apply unit value)
      | binary op l r =>
        foldChain (valueAt stack read unit bindings levels resolving)
          (fun op a b => MonadExcept.ofExcept (op.apply a b)) (binary op l r)

/-- The value of a tree of at most `levels` levels with room for all calls. -/
def valueLevels (read : List Char → m Tree) (unit : AngleUnit) (bindings : Bindings)
    (levels : Nat) (resolving : List String) (t : Tree) : m Decimal :=
  valueAt .boundless (fun _ => read) unit bindings levels resolving t

def value (read : List Char → m Tree) (unit : AngleUnit) (bindings : Bindings) (t : Tree) :
    m Decimal :=
  valueLevels read unit bindings (maxDepth + 1) [] t

end Tree

namespace Formula

variable {m : Type → Type} [Monad m] [MonadExceptOf Failure m] [Binary64.Library]

/-- The value of a formula on a call stack, all texts read by `read` inside so many open calls. -/
def evaluateOn (stack : CallStack) (read : (calls : Nat) → List Char → m Tree) (unit : AngleUnit)
    (bindings : Bindings) (s : List Char) : m Decimal := do
  let tree ← read 0 s
  tree.valueAt stack read unit bindings.normalized (maxDepth + 1) []

/-- The value of a formula, all texts read by `read`. -/
def evaluateWith (read : List Char → m Tree) (unit : AngleUnit) (bindings : Bindings)
    (s : List Char) : m Decimal := do
  let tree ← read s
  tree.value read unit bindings.normalized

def evaluate (unit : AngleUnit) (bindings : Bindings) (s : List Char) : Except Failure Decimal :=
  evaluateWith readFormula unit bindings s

end Formula

end Reckon
