import Reckon.Simplify.Combine
import Reckon.Text.Lowercase
import Reckon.Tree.Spine

/-!
# Derivatives

`Tree.derivative x t` is the derivative of `t` with respect to the variable `x`, built through the
simplifying rules. The derivative of a function of `u` is the derivative of `u` combined with a
tree that depends on the function: `Unary.chainRule` is the table of these.
-/

namespace Reckon

open Simplify (Plan opposite square oneMinusSquare)
open Simplify.Plan (combine)
open Reckon.Tree (unary binary)

/-- How the derivative of `f(u)` comes from that of `u`, written `du`. -/
inductive ChainRule where
  /-- The derivative is zero wherever there is one. -/
  | constant
  /-- The derivative is `du`. -/
  | same
  /-- The function is linear: its derivative is the function of `du`. -/
  | linear
  /-- The derivative is `du * g`. -/
  | factor (g : Tree → Plan Tree)
  /-- The derivative is `du / g`. -/
  | divisor (g : Tree → Plan Tree)
  /-- The derivative is `(-du) / g`. -/
  | negatedDivisor (g : Tree → Plan Tree)
  /-- The derivative is `-(du / g)`. -/
  | oppositeOfDivisor (g : Tree → Plan Tree)
  /-- There is no derivative. -/
  | none

namespace ChainRule

/-! ### Trees that several functions share -/

/-- The tree `t ^ 2 - 1`. -/
def squareMinusOne (t : Tree) : Plan Tree := do
  combine .minus (← square t) .one

/-- The tree `1 + t ^ 2`. -/
def onePlusSquare (t : Tree) : Plan Tree := do
  combine .plus .one (← square t)

/-- The square root of `1 - t ^ 2`. -/
def circleRoot (t : Tree) : Plan Tree := do
  Simplify.sqrt (← oneMinusSquare t)

/-- The product of `abs(t)` and the square root of `t ^ 2 - 1`. -/
def secantRoot (t : Tree) : Plan Tree := do
  combine .times (unary .abs t) (← Simplify.sqrt (← squareMinusOne t))

/-- The product of `sec(u)` and `tan(u)`. -/
def secantTangent (u : Tree) : Plan Tree := do
  combine .times (unary .sec u) (← Simplify.tan u)

end ChainRule

namespace Unary

open ChainRule

def chainRule : Unary → ChainRule
  | sin => factor Simplify.cos
  | cos => factor fun u => do opposite (← Simplify.sin u)
  | tan => factor fun u => do combine .plus .one (← square (← Simplify.tan u))
  | cotan => factor fun u => do combine .minus .minusOne (← square (← Simplify.cotan u))
  | sec | exsec => factor secantTangent
  | csc => factor fun u => do
      opposite (← combine .times (unary .csc u) (← Simplify.cotan u))
  | vers => factor Simplify.sin
  | covers => factor fun u => do opposite (← Simplify.cos u)
  | hav => factor fun u => do combine .div (← Simplify.sin u) .two
  | sinc => factor fun u => do
      combine .div (← combine .minus (← combine .times u (← Simplify.cos u)) (← Simplify.sin u))
        (← square u)
  | sinh => factor fun u => .done (unary .cosh u)
  | cosh => factor fun u => .done (unary .sinh u)
  | tanh => factor fun u => oneMinusSquare (unary .tanh u)
  | cotanh => factor fun u => oneMinusSquare (unary .cotanh u)
  | sech => factor fun u => do
      opposite (← combine .times (unary .sech u) (unary .tanh u))
  | csch => factor fun u => do
      opposite (← combine .times (unary .csch u) (unary .cotanh u))
  | exp => factor Simplify.exp
  | ln => factor fun u => combine .div .one u
  | abs => factor fun u => combine .div u (unary .abs u)
  | sqrt => divisor fun u => do combine .times .two (← Simplify.sqrt u)
  | asin => divisor circleRoot
  | acos => oppositeOfDivisor circleRoot
  | atan => divisor onePlusSquare
  | acotan => negatedDivisor onePlusSquare
  | asec => divisor secantRoot
  | acsc => negatedDivisor secantRoot
  | aexsec => divisor fun u => do
      combine .times (unary .abs (← combine .plus u .one))
        (← Simplify.sqrt (← squareMinusOne (← combine .plus u .one)))
  | avers => divisor fun u => do circleRoot (← combine .minus .one u)
  | acovers => negatedDivisor fun u => do circleRoot (← combine .minus .one u)
  | ahav => divisor fun u => do Simplify.sqrt (← combine .minus u (← square u))
  | asinh => divisor fun u => do Simplify.sqrt (← combine .plus (← square u) .one)
  | acosh => divisor fun u => do Simplify.sqrt (← squareMinusOne u)
  | atanh | acoth => divisor oneMinusSquare
  | asech => negatedDivisor fun u => do combine .times u (← circleRoot u)
  | acsch => negatedDivisor fun u => do
      combine .times (unary .abs u) (← Simplify.sqrt (← onePlusSquare u))
  | floor | ceil | round => constant
  | fpart => same
  | degToRad | degToGrad | radToDeg | radToGrad | gradToDeg | gradToRad => linear
  | not | fac | sfac => none

end Unary

namespace ChainRule

/-- The derivative of `op(u)` from the derivative of `u`, which is taken when the rule asks for
it. -/
def apply (rule : ChainRule) (op : Unary) (u : Tree) (derivative : Tree → Plan Tree) :
    Plan Tree :=
  match rule with
  | constant => .done .zero
  | same => derivative u
  | linear => do return unary op (← derivative u)
  | factor g => do combine .times (← derivative u) (← g u)
  | divisor g => do combine .div (← derivative u) (← g u)
  | negatedDivisor g => do
    let du ← derivative u
    combine .div (← opposite du) (← g u)
  | oppositeOfDivisor g => do
    let du ← derivative u
    opposite (← combine .div du (← g u))
  | none => do
    let _ ← derivative u
    .fail (.malformed (.notDifferentiable op.name))

end ChainRule

namespace Tree

/-- The derivative of `a ^ b`. -/
def derivativeOfPower (derivative : Tree → Plan Tree) (a b : Tree) :
    Plan Tree :=
  match a, b with
  | number x, b => do
    combine .times (← combine .times (← Simplify.ln (number x)) (← derivative b))
      (binary .power (number x) b)
  | a, number n => do
    let da ← derivative a
    let lower ← combine .power a (← combine .minus (number n) one)
    combine .times da (← combine .times (number n) lower)
  | a, b => do
    let lnA ← Simplify.ln a
    let fromExponent ← combine .times (← derivative b) lnA
    let fromBase ← combine .times (← derivative lnA) b
    combine .times (binary .power a b) (← combine .plus fromExponent fromBase)

/-- The derivative of a tree of at most `levels` levels. -/
def derivativeLevels (x : String) : (levels : Nat) → Tree → Plan Tree
  | 0, _ => .fail .tooDeep
  | levels + 1, t =>
    let derivative := derivativeLevels x levels
    match t with
    | number _ => .done zero
    | var y =>
      .done (if Text.lowercase y.toList = Text.lowercase x.toList then one else zero)
    | unary op u => op.chainRule.apply op u derivative
    | binary op a b =>
      match op with
      | .plus | .minus => foldSpine Binary.isSign derivative combine (binary op a b)
      | .times => do
        let left ← combine .times a (← derivative b)
        combine .plus left (← combine .times (← derivative a) b)
      | .div => do
        let left ← combine .times b (← derivative a)
        let right ← combine .times a (← derivative b)
        combine .div (← combine .minus left right) (← square b)
      | .power => derivativeOfPower derivative a b
      | .log => do derivative (← combine .div (← Simplify.ln a) (← Simplify.ln b))
      | .modulo => do
        let da ← derivative a
        let db ← derivative b
        combine .minus da (← combine .times db (unary .floor (← combine .div a b)))
      | op => .fail (.malformed (.notDifferentiable op.name))

/-- The rules for the derivative of a tree with respect to a variable. -/
def derivativePlan (x : String) (t : Tree) : Plan Tree :=
  derivativeLevels x (maxDepth + 1) t

/-- The derivative of a tree with respect to a variable. -/
def derivative (x : String) (t : Tree) : Except Failure Tree :=
  (derivativePlan x t).run .working

end Tree

end Reckon
