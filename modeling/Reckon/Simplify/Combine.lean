import Reckon.Simplify.Difference
import Reckon.Simplify.Power
import Reckon.Simplify.Product
import Reckon.Simplify.Quotient
import Reckon.Simplify.Sum

/-!
# Simplified trees

`combine op a b` is the simplified tree of `a op b`, `Simplify.apply op a` that of `op a`. A rule
may ask for simplified trees of what other rules built, so the recursion goes by a bound on the
number of rules applied inside each other, which grows with the trees. `Plan.run` answers all that
a plan asks for.
-/

namespace Reckon.Simplify

open Reckon.Tree (number var unary binary)

/-- The rules of an operator. -/
def rule : Binary → Tree → Tree → Plan Tree
  | .plus, a, b => sum a b
  | .minus, a, b => difference a b
  | .times, a, b => product a b
  | .div, a, b => quotient a b
  | .power, a, b => power a b
  | op, a, b => .done (binary op a b)

/-- Applies at most `bound` rules inside each other. -/
def combineWithin (arith : Arithmetic) : (bound : Nat) → Combine
  | 0, _, _, _ => .error .tooComplex
  | bound + 1, op, a, b => (rule op a b).follow (arith.answer (combineWithin arith bound))

/-- How many rules may be applied inside each other. -/
def ruleBound (a b : Tree) : Nat :=
  let n := a.size + b.size + 4
  n * n * n * n

def combineBy (arith : Arithmetic) (op : Binary) (a b : Tree) : Except Failure Tree :=
  combineWithin arith (ruleBound a b) op a b

/-- What a plan comes to when its numbers are computed by `arith` and its trees by the rules. -/
def Plan.run {α : Type} (arith : Arithmetic) (p : Plan α) : Except Failure α :=
  p.follow (arith.answer (combineBy arith))

/-- The simplified tree of an operator and two operands. -/
def combine (op : Binary) (a b : Tree) : Except Failure Tree :=
  combineBy .working op a b

/-! ### Operators of one operand -/

/-- The square root: taken if it is an integer, and of an even power by halving the exponent. -/
def sqrt (a : Tree) : Plan Tree :=
  match a with
  | number x => do
    if ← Decimal.atMost .zero x then
      if let some root ← Plan.integer (.root x) then return ← kept root
    return unary .sqrt a
  | binary .power p (number n) => do
    match ← Plan.integer (.half n) with
    | some half => Plan.combine .power p (← kept half)
    | none => return unary .sqrt a
  | a => .done (unary .sqrt a)

/-- The tree `1 - t ^ 2`. -/
def oneMinusSquare (t : Tree) : Plan Tree := do
  Plan.combine .minus .one (← square t)

def sin : Tree → Plan Tree
  | unary .asin t => .done t
  | unary .acos t => do sqrt (← oneMinusSquare t)
  | t => .done (unary .sin t)

def cos : Tree → Plan Tree
  | unary .acos t => .done t
  | unary .asin t => do sqrt (← oneMinusSquare t)
  | t => .done (unary .cos t)

def tan : Tree → Plan Tree
  | unary .atan t => .done t
  | unary .acotan t => Plan.combine .div .one t
  | t => .done (unary .tan t)

def cotan : Tree → Plan Tree
  | unary .acotan t => .done t
  | t => .done (unary .cotan t)

def acotan : Tree → Plan Tree
  | unary .cotan t => .done t
  | t => .done (unary .acotan t)

def ln : Tree → Plan Tree
  | unary .exp t => .done t
  | t => .done (unary .ln t)

def exp : Tree → Plan Tree
  | unary .ln t => .done t
  | t => if t.isZero then .done .one else .done (unary .exp t)

/-- The rules of an operator of one operand. -/
def unaryRule : Unary → Tree → Plan Tree
  | .sqrt, t => sqrt t
  | .sin, t => sin t
  | .cos, t => cos t
  | .tan, t => tan t
  | .cotan, t => cotan t
  | .acotan, t => acotan t
  | .ln, t => ln t
  | .exp, t => exp t
  | op, t => .done (unary op t)

/-- The simplified tree of an operator and one operand. -/
def apply (op : Unary) (a : Tree) : Except Failure Tree :=
  (unaryRule op a).run .working

end Reckon.Simplify
