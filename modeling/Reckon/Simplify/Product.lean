import Reckon.Simplify.Basic

/-!
# Rules for products

Numbers are multiplied, factors one left out, equal factors made a square. A number or a variable
is distributed over sums and differences, and a sum times the difference of the same terms is a
difference of squares.
-/

namespace Reckon.Simplify

open Plan (combine)
open Reckon.Tree (number var unary binary)

/-- The product `c * t`. A negative `c` is distributed with its sign in the operator. -/
def productWithNumber (t : Tree) (c : Decimal) : Plan Tree :=
  match t with
  | binary .plus p q => do
    if ← c.less .zero then
      combine .minus (← combine .times (number c) p) (← combine .times (← negated c) q)
    else combine .plus (← combine .times (number c) p) (← combine .times (number c) q)
  | binary .minus p q => do
    if ← Decimal.less .zero c then
      combine .minus (← combine .times (number c) p) (← combine .times (number c) q)
    else combine .plus (← combine .times (number c) p) (← combine .times (← negated c) q)
  | binary .times (number d) x
  | binary .times x (number d) => do combine .times (← rounded (.product c d)) x
  | t => .done (binary .times (number c) t)

/-- The product `x * t` for a variable `x`. -/
def productWithVariable (t x : Tree) : Plan Tree :=
  match t with
  | binary .plus p q => do combine .plus (← combine .times x p) (← combine .times x q)
  | binary .minus p q => do combine .minus (← combine .times x p) (← combine .times x q)
  | binary .power y n =>
    if y.same x then do combine .power x (← combine .plus .one n) else .done (binary .times x t)
  | t => .done (binary .times x t)

def productWithAtom (t : Tree) : (atom : Tree) → Plan Tree
  | number c => productWithNumber t c
  | x => productWithVariable t x

/-- The tree `p ^ 2 - q ^ 2`. -/
def differenceOfSquares (p q : Tree) : Plan Tree := do
  combine .minus (← square p) (← square q)

/-- The product `a * b` for two operators with their operands. -/
def productOfCompounds (a b : Tree) : Plan Tree :=
  match a, b with
  | binary .plus p q, binary .minus r s =>
    if p.same r && q.same s then differenceOfSquares p q
    else if p.same s && q.same r then differenceOfSquares q p
    else .done (binary .times a b)
  | binary .minus p q, binary .plus r s =>
    if p.same r && q.same s || p.same s && q.same r then differenceOfSquares p q
    else .done (binary .times a b)
  | a, b => .done (binary .times a b)

/-- The product `a * b`. -/
def product (a b : Tree) : Plan Tree :=
  match a, b with
  | number x, number y => rounded (.product x y)
  | a, b =>
    if a.isZero || b.isZero then .done .zero
    else if a.isOne then .done b
    else if b.isOne then .done a
    else if a.same b then square a
    else
      match a.isCompound, b.isCompound with
      | true, true => productOfCompounds a b
      | true, false => productWithAtom a b
      | false, true => productWithAtom b a
      | false, false => .done (binary .times a b)

end Reckon.Simplify
