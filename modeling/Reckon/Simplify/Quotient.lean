import Reckon.Simplify.Basic

/-!
# Rules for quotients

Numbers are divided when the quotient is an integer. A term or factor that equals the divisor is
cancelled, and quotients of quotients become one.
-/

namespace Reckon.Simplify

open Plan (combine)
open Reckon.Tree (number var unary binary)

/-- The quotient of two numbers, divided out if it is an integer. -/
def quotientOfNumbers (x y : Decimal) : Plan Tree := do
  if y.isZero then return binary .div (number x) (number y)
  else
    match ← Plan.integer (.quotient x y) with
    | some q => kept q
    | none => return binary .div (number x) (number y)

/-- The quotient `(p + q) / b`. -/
def quotientOfSum (p q b : Tree) : Plan Tree := do
  if b.same p then combine .plus .one (← combine .div q b)
  else if b.same q then combine .plus (← combine .div p b) .one
  else return binary .div (binary .plus p q) b

/-- The quotient `(p - q) / b`. -/
def quotientOfDifference (p q b : Tree) : Plan Tree := do
  if b.same p then combine .minus .one (← combine .div q b)
  else if b.same q then combine .minus (← combine .div p b) .one
  else return binary .div (binary .minus p q) b

/-- The quotient `(p * q) / b`. -/
def quotientOfProduct (p q b : Tree) : Plan Tree :=
  if b.same p then .done q
  else if b.same q then .done p
  else .done (binary .div (binary .times p q) b)

/-- The quotient `(p / q) / b`. -/
def quotientOfQuotient (p q b : Tree) : Plan Tree :=
  match b with
  | binary .div r s => do combine .div (← combine .times p s) (← combine .times q r)
  | b =>
    if b.isCompound then .done (binary .div (binary .div p q) b)
    else do combine .div p (← combine .times b q)

/-- The quotient `a / b`. -/
def quotient (a b : Tree) : Plan Tree :=
  match a, b with
  | number x, number y => quotientOfNumbers x y
  | a, b =>
    if a.isZero then .done .zero
    else if b.isOne then .done a
    else if a.same b then .done .one
    else
      match a with
      | binary .plus p q => quotientOfSum p q b
      | binary .minus p q => quotientOfDifference p q b
      | binary .times p q => quotientOfProduct p q b
      | binary .div p q => quotientOfQuotient p q b
      | a => .done (binary .div a b)

end Reckon.Simplify
