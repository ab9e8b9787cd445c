import Reckon.Formula.Reader

/-!
# Call stacks

Reading a formula, evaluating it and rewriting its tree open calls inside calls, and the machine may
have room for so many of them and no more. A computation that would need more fails as too complex,
wherever it has got to. The calls that are counted are those that one more level of a text or a tree
takes; what a call does besides takes the same few everywhere, and the room is what they leave.
-/

namespace Reckon

structure CallStack where
  /-- How many calls may be open at once, or as many as are needed. -/
  room : Option Nat
  /-- Whether the calls that go through a tree find room when it is simplified, differentiated or
  written. -/
  carries : Tree → Bool

namespace CallStack

/-- There is room for everything. -/
def boundless : CallStack :=
  ⟨none, fun _ => true⟩

/-- What is done in the last of so many open calls. -/
def within {m : Type → Type} [MonadExceptOf Failure m] {α : Type} (stack : CallStack) (calls : Nat)
    (x : m α) : m α :=
  if stack.room.all (calls ≤ ·) then x else throw .tooComplex

@[simp] theorem within_boundless {m : Type → Type} [MonadExceptOf Failure m] {α : Type}
    (calls : Nat) (x : m α) : boundless.within calls x = x :=
  rfl

/-- What comes of going through a tree. -/
def carrying {α : Type} (stack : CallStack) (t : Tree) (r : Except Failure α) : Except Failure α :=
  if stack.carries t then r else .error .tooComplex

@[simp] theorem carrying_boundless {α : Type} (t : Tree) (r : Except Failure α) :
    boundless.carrying t r = r :=
  rfl

/-- The tree of a prepared text that is read inside so many open calls. -/
def read (stack : CallStack) (calls : Nat) (s : List Char) : Except Failure Tree :=
  match stack.room with
  | none => Formula.read s
  | some room =>
    -- the call that finds a text too deep needs room as well
    if maxDepth + 1 < room - calls then Formula.read s
    else
      (Formula.readLevels (room - calls) s).mapError fun
        | .tooDeep => .tooComplex
        | f => f

@[simp] theorem read_boundless (calls : Nat) (s : List Char) :
    boundless.read calls s = Formula.read s :=
  rfl

/-- The tree of a formula as it was typed. -/
def readFormula (stack : CallStack) (s : List Char) : Except Failure Tree := do
  let prepared ← Formula.prepare s
  Formula.validate prepared
  stack.read 0 prepared

@[simp] theorem readFormula_boundless (s : List Char) :
    boundless.readFormula s = Formula.readFormula s :=
  rfl

end CallStack

end Reckon
