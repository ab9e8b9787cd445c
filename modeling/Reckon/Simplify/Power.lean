import Reckon.Simplify.Basic

/-!
# Rules for powers

A power of numbers is computed when it is an integer. A power of a power with numbers as exponents
becomes one power.
-/

namespace Reckon.Simplify

open Plan (combine)
open Reckon.Tree (number var unary binary)

/-- The power of two numbers, computed if it has a value that is an integer. -/
def powerOfNumbers (x y : Decimal) : Plan Tree := do
  match ← Plan.integer (.power x y) with
  | some v => kept v
  | none => return binary .power (number x) (number y)

/-- The power `a ^ b`. -/
def power (a b : Tree) : Plan Tree :=
  match a, b with
  | number x, number y =>
    if (number x).isOne || (number y).isZero then .done .one
    else if (number y).isOne then .done (number x)
    else powerOfNumbers x y
  | a, b =>
    if b.isZero then .done .one
    else if b.isOne then .done a
    else
      match a, b with
      | binary .power p (number x), number y => do
        combine .power p (← combine .times (number x) (number y))
      | a, b => .done (binary .power a b)

end Reckon.Simplify
