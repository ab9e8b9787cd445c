import Reckon.Numeric.Basic
import Reckon.Numeric.Root
import Reckon.Tree.Basic

/-!
# Plans

A rule computes no numbers and builds no trees itself: it asks for them and goes on with the
answers. A plan is such a conversation. `Plan.follow` holds it with somebody who answers.
-/

namespace Reckon.Simplify

/-- A number that a rule asks for. -/
inductive Computation where
  | sum (a b : Decimal)
  | difference (a b : Decimal)
  | product (a b : Decimal)
  | opposite (a : Decimal)
  /-- The number as it stands in a tree. -/
  | kept (a : Decimal)

/-- A number that a rule takes only if it is an integer. -/
inductive IntegerComputation where
  | quotient (a b : Decimal)
  | power (a b : Decimal)
  | half (a : Decimal)
  | root (a : Decimal)

namespace Computation

/-- The number, rounded to working precision; signs are turned with fewer digits. -/
def result : Computation → Except Signal Decimal
  | sum a b => Decimal.add .working a b
  | difference a b => Decimal.sub .working a b
  | product a b => Decimal.mul .working a b
  | opposite a => Decimal.minus .plain a
  | kept a => Decimal.plus .working a

end Computation

namespace IntegerComputation

def ifIntegral (a : Decimal) : Option Decimal :=
  if a.isIntegral then some a else none

/-- The number if it is an integer once it is rounded. A power that has no value is none. -/
def result : IntegerComputation → Except Failure (Option Decimal)
  | quotient a b => do return ifIntegral (← Decimal.div .working a b)
  | power a b =>
    match Numeric.power a b with
    | .ok v => .ok (ifIntegral v)
    | .error (.undefined _) => .ok none
    | .error f => .error f
  | half a => do return ifIntegral (← Decimal.div .plain a .two)
  | root a => do return ifIntegral (← Numeric.sqrt a)

end IntegerComputation

inductive Question where
  | number (c : Computation)
  | integer (c : IntegerComputation)
  /-- The simplified tree of an operator and two operands. -/
  | tree (op : Binary) (a b : Tree)

abbrev Question.Answer : Question → Type
  | number _ => Decimal
  | integer _ => Option Decimal
  | tree .. => Tree

inductive Plan (α : Type) where
  | done (a : α)
  | fail (f : Failure)
  | ask (q : Question) (next : q.Answer → Plan α)

namespace Plan
variable {α β : Type}

def bind : Plan α → (α → Plan β) → Plan β
  | done a, f => f a
  | fail e, _ => fail e
  | ask q next, f => ask q fun a => (next a).bind f

instance : Monad Plan where
  pure := done
  bind := bind

def ofExcept : Except Failure α → Plan α
  | .ok a => done a
  | .error f => fail f

instance : MonadLift (Except Failure) Plan where
  monadLift := ofExcept

def number (c : Computation) : Plan Decimal :=
  ask (.number c) done

def integer (c : IntegerComputation) : Plan (Option Decimal) :=
  ask (.integer c) done

/-- Asks for the simplified tree of an operator and two operands. -/
def combine (op : Binary) (a b : Tree) : Plan Tree :=
  ask (.tree op a b) done

/-- What a plan comes to when `answer` answers its questions. -/
def follow (answer : (q : Question) → Except Failure q.Answer) : Plan α → Except Failure α
  | done a => .ok a
  | fail f => .error f
  | ask q next => answer q >>= fun a => (next a).follow answer

end Plan

/-- Builds the tree of an operator and two operands. -/
abbrev Combine := Binary → Tree → Tree → Except Failure Tree

/-- How the numbers that rules ask for are computed. -/
structure Arithmetic where
  number : Computation → Except Failure Decimal
  integer : IntegerComputation → Except Failure (Option Decimal)

namespace Arithmetic

/-- Numbers at working precision. -/
def working : Arithmetic where
  number c := c.result
  integer c := c.result

def answer (arith : Arithmetic) (combine : Combine) : (q : Question) → Except Failure q.Answer
  | .number c => arith.number c
  | .integer c => arith.integer c
  | .tree op a b => combine op a b

end Arithmetic

end Reckon.Simplify
