import Reckon.Simplify.Basic

/-!
# Rules for differences

Numbers are subtracted, zeros left out, terms that occur on both sides cancelled.
-/

namespace Reckon.Simplify

open Plan (combine)
open Reckon.Tree (number var unary binary)

/-- The difference `t - c`. -/
def differenceWithNumber (t : Tree) (c : Decimal) : Plan Tree :=
  match t with
  | binary .plus (number d) x
  | binary .plus x (number d) => do combine .plus (← rounded (.difference d c)) x
  | binary .minus (number d) x => do combine .minus (← rounded (.difference d c)) x
  | binary .minus x (number d) => do combine .minus x (← rounded (.sum d c))
  | t => .done (binary .minus t (number c))

/-- The difference `t - x` for a variable `x`. -/
def differenceWithVariable (t x : Tree) : Plan Tree :=
  match t with
  | binary .plus p q =>
    if p.same x then .done q
    else if q.same x then .done p
    else .done (binary .minus t x)
  | binary .minus p q =>
    if p.same x then opposite q
    else if q.same x then do combine .minus p (← twice x)
    else .done (binary .minus t x)
  | binary .times (number c) y
  | binary .times y (number c) =>
    if y.same x then oneLess c x else .done (binary .minus t x)
  | t => .done (binary .minus t x)

def differenceWithAtom (t : Tree) : (atom : Tree) → Plan Tree
  | number c => differenceWithNumber t c
  | x => differenceWithVariable t x

/-- The difference `c - t`. -/
def differenceFromNumber (c : Decimal) (t : Tree) : Plan Tree :=
  match t with
  | binary .plus (number d) x
  | binary .plus x (number d) => do combine .minus (← rounded (.difference c d)) x
  | binary .minus (number d) x => do combine .plus (← rounded (.difference c d)) x
  | binary .minus x (number d) => do combine .minus (← rounded (.sum c d)) x
  | t => .done (binary .minus (number c) t)

/-- The difference `x - t` for a variable `x`. -/
def differenceFromVariable (x t : Tree) : Plan Tree :=
  match t with
  | binary .plus p q =>
    if p.same x then opposite q
    else if q.same x then opposite p
    else .done (binary .minus x t)
  | binary .minus p q =>
    if p.same x then .done q
    else if q.same x then do combine .minus (← twice x) p
    else .done (binary .minus x t)
  | binary .times (number c) y
  | binary .times y (number c) =>
    if y.same x then oneMinus c x else .done (binary .minus x t)
  | t => .done (binary .minus x t)

def differenceFromAtom (atom t : Tree) : Plan Tree :=
  match atom with
  | number c => differenceFromNumber c t
  | x => differenceFromVariable x t

/-- The difference `(p + q) - (r + s)`. -/
def differenceOfSums (p q r s : Tree) : Plan Tree :=
  if p.same r then combine .minus q s
  else if p.same s then combine .minus q r
  else if q.same r then combine .minus p s
  else if q.same s then combine .minus p r
  else .done (binary .minus (binary .plus p q) (binary .plus r s))

/-- The difference `(p + q) - (r - s)`. -/
def sumMinusDifference (p q r s : Tree) : Plan Tree := do
  if p.same r then combine .plus q s
  else if p.same s then combine .plus (← twice p) (← combine .minus q r)
  else if q.same r then combine .plus p s
  else if q.same s then combine .plus (← twice q) (← combine .minus p r)
  else return binary .minus (binary .plus p q) (binary .minus r s)

/-- The difference `(p - q) - (r + s)`. -/
def differenceMinusSum (p q r s : Tree) : Plan Tree := do
  if p.same r then combine .minus (← opposite q) s
  else if p.same s then combine .minus (← opposite q) r
  else if q.same r then combine .minus (← combine .minus p s) (← twice q)
  else if q.same s then combine .minus (← combine .minus p r) (← twice q)
  else return binary .minus (binary .minus p q) (binary .plus r s)

/-- The difference `(p - q) - (r - s)`. -/
def differenceOfDifferences (p q r s : Tree) : Plan Tree := do
  if p.same r then combine .minus s q
  else if p.same s then combine .minus (← twice p) (← combine .plus q r)
  else if q.same r then combine .minus (← combine .plus p s) (← twice q)
  else if q.same s then combine .minus p r
  else return binary .minus (binary .minus p q) (binary .minus r s)

/-- The difference `a - b` for two operators with their operands. -/
def differenceOfCompounds (a b : Tree) : Plan Tree :=
  match a, b with
  | binary .plus p q, binary .plus r s => differenceOfSums p q r s
  | binary .plus p q, binary .minus r s => sumMinusDifference p q r s
  | binary .minus p q, binary .plus r s => differenceMinusSum p q r s
  | binary .minus p q, binary .minus r s => differenceOfDifferences p q r s
  | binary .plus p q, binary .times (number c) x
  | binary .plus p q, binary .times x (number c) => do
    if p.same x then combine .plus (← oneMinus c p) q
    else if q.same x then combine .plus (← oneMinus c q) p
    else return binary .minus a b
  | binary .minus p q, binary .times (number c) x
  | binary .minus p q, binary .times x (number c) => do
    if p.same x then combine .minus (← oneMinus c p) q
    else if q.same x then combine .plus (← minusOneMinus c q) p
    else return binary .minus a b
  | a, b => .done (binary .minus a b)

/-- The difference `a - b`. -/
def difference (a b : Tree) : Plan Tree :=
  match a, b with
  | number x, number y => rounded (.difference x y)
  | a, b =>
    if a.isZero then opposite b
    else if b.isZero then .done a
    else if a.same b then .done .zero
    else
      match a.isCompound, b.isCompound with
      | true, true => differenceOfCompounds a b
      | true, false => differenceWithAtom a b
      | false, true => differenceFromAtom a b
      | false, false => .done (binary .minus a b)

end Reckon.Simplify
