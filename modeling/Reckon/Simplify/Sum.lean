import Reckon.Simplify.Basic

/-!
# Rules for sums

Numbers are added, zeros left out, like terms collected. Where no rule applies the sum is written
down, an atom behind an operator that it is added to.
-/

namespace Reckon.Simplify

open Plan (combine)
open Reckon.Tree (number var unary binary)

/-- The sum `v + t`, written as a difference when `v` is negative. -/
def signedSum (v : Decimal) (t : Tree) : Plan Tree := do
  if ← Decimal.atMost .zero v then combine .plus (← kept v) t
  else combine .minus t (← negated v)

/-- The sum `t + c`. -/
def sumWithNumber (t : Tree) (c : Decimal) : Plan Tree :=
  match t with
  | binary .plus (number d) x
  | binary .plus x (number d) => do signedSum (← Plan.number (.sum c d)) x
  | binary .minus (number d) x => do combine .minus (← rounded (.sum c d)) x
  | binary .minus x (number d) => do signedSum (← Plan.number (.difference c d)) x
  | t => .done (binary .plus t (number c))

/-- The sum `t + x` for a variable `x`. -/
def sumWithVariable (t x : Tree) : Plan Tree :=
  match t with
  | binary .plus p q =>
    if p.same x then do combine .plus (← twice x) q
    else if q.same x then do combine .plus (← twice x) p
    else .done (binary .plus t x)
  | binary .minus p q =>
    if p.same x then do combine .minus (← twice x) q
    else if q.same x then .done p
    else .done (binary .plus t x)
  | binary .times (number c) y
  | binary .times y (number c) =>
    if y.same x then oneMore c x else .done (binary .plus t x)
  | t => .done (binary .plus t x)

def sumWithAtom (t : Tree) : (atom : Tree) → Plan Tree
  | number c => sumWithNumber t c
  | x => sumWithVariable t x

/-- The sum `(p + q) + (r + s)`. -/
def sumOfSums (p q r s : Tree) : Plan Tree := do
  if p.same r then combine .plus (← twice p) (← combine .plus q s)
  else if q.same s then combine .plus (← twice q) (← combine .plus p r)
  else if p.same s then combine .plus (← twice p) (← combine .plus q r)
  else if q.same r then combine .plus (← twice q) (← combine .plus p s)
  else return binary .plus (binary .plus p q) (binary .plus r s)

/-- The sum `(p + q) + (r - s)`. -/
def sumWithDifference (p q r s : Tree) : Plan Tree := do
  if p.same r then combine .plus (← twice p) (← combine .minus q s)
  else if p.same s then combine .plus q r
  else if q.same r then combine .plus (← twice q) (← combine .minus p s)
  else if q.same s then combine .plus p r
  else return binary .plus (binary .plus p q) (binary .minus r s)

/-- The sum `(p - q) + (r - s)`. -/
def sumOfDifferences (p q r s : Tree) : Plan Tree := do
  if p.same r then combine .minus (← twice p) (← combine .plus q s)
  else if p.same s then combine .minus r q
  else if q.same r then combine .minus p s
  else if q.same s then combine .minus (← combine .plus p r) (← twice q)
  else return binary .plus (binary .minus p q) (binary .minus r s)

/-- The sum `a + b` for two operators with their operands. -/
def sumOfCompounds (a b : Tree) : Plan Tree :=
  match a, b with
  | binary .plus p q, binary .plus r s => sumOfSums p q r s
  | binary .plus p q, binary .minus r s => sumWithDifference p q r s
  | binary .minus r s, binary .plus p q => sumWithDifference p q r s
  | binary .minus p q, binary .minus r s => sumOfDifferences p q r s
  | binary .plus p q, binary .times (number c) x
  | binary .plus p q, binary .times x (number c) => do
    if p.same x then combine .plus q (← oneMore c p)
    else if q.same x then combine .plus p (← oneMore c q)
    else return binary .plus a b
  | binary .minus p q, binary .times (number c) x
  | binary .minus p q, binary .times x (number c) => do
    if p.same x then combine .minus (← oneMore c p) q
    else if q.same x then combine .plus (← oneLess c q) p
    else return binary .plus a b
  | a, b => .done (binary .plus a b)

/-- The sum `a + b`. -/
def sum (a b : Tree) : Plan Tree :=
  match a, b with
  | number x, number y => rounded (.sum x y)
  | a, b =>
    if a.isZero then .done b
    else if b.isZero then .done a
    else if a.same b then twice a
    else
      match a.isCompound, b.isCompound with
      | true, true => sumOfCompounds a b
      | true, false => sumWithAtom a b
      | false, true => sumWithAtom b a
      | false, false => .done (binary .plus a b)

end Reckon.Simplify
