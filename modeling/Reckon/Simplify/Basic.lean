import Reckon.Simplify.Plan

/-!
# What simplifying rules share

Every rule is a plan: it asks for the simplified trees that it puts in place of its operands, and
for the numbers in them.
-/

namespace Reckon.Simplify

open Plan (combine)

/-- A number as a tree. -/
def kept (a : Decimal) : Plan Tree := do
  return .number (← Plan.number (.kept a))

/-- The number that a computation yields. -/
def rounded (c : Computation) : Plan Tree := do
  kept (← Plan.number c)

/-- The number with its sign turned. -/
def negated (c : Decimal) : Plan Tree :=
  rounded (.opposite c)

def twice (t : Tree) : Plan Tree :=
  combine .times .two t

def opposite (t : Tree) : Plan Tree :=
  combine .times .minusOne t

def square (t : Tree) : Plan Tree :=
  combine .power t .two

/-- The tree `(1 + c) * t`. -/
def oneMore (c : Decimal) (t : Tree) : Plan Tree := do
  combine .times (← combine .plus .one (.number c)) t

/-- The tree `(c - 1) * t`. -/
def oneLess (c : Decimal) (t : Tree) : Plan Tree := do
  combine .times (← combine .minus (.number c) .one) t

/-- The tree `(1 - c) * t`. -/
def oneMinus (c : Decimal) (t : Tree) : Plan Tree := do
  combine .times (← combine .minus .one (.number c)) t

/-- The tree `(-1 - c) * t`. -/
def minusOneMinus (c : Decimal) (t : Tree) : Plan Tree := do
  combine .times (← combine .minus .minusOne (.number c)) t

end Reckon.Simplify
