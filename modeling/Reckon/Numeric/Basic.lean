import Reckon.Binary64.Elementary
import Reckon.Binary64.Shortest
import Reckon.Failure

/-!
# Numeric functions of decimals

A function either works on decimals throughout or goes through doubles: the argument is rounded to
the nearest double, the value there is taken, and its shortest decimal is the result
(`viaDouble`). This module holds that passage and the basic operations. No function returns an
infinity that it computed through doubles, or what is no number: such results are failures, however
the functions of doubles are computed.
-/

namespace Reckon.Numeric

open Decimal (zero one)

variable [Binary64.Library]

def divisionByZero {α : Type} (op : String) : Except Failure α :=
  .error (.undefined (.divisionByZero op))

def tooLarge {α : Type} (op : String) : Except Failure α :=
  .error (.undefined (.tooLarge op))

def outsideDomain {α : Type} (op : String) (a : Decimal) (expected : Option String) :
    Except Failure α :=
  .error (.undefined (.outsideDomain op a expected))

/-- A finite double as a decimal. -/
def widen (op : String) (x : Binary64) : Except Failure Decimal :=
  match x with
  | .finite .. => .ok x.toDecimal
  | .infinite _ | .nan => tooLarge op

/-- The value of a function of doubles. -/
def viaDouble (f : Binary64.Elementary) (op : String) (a : Decimal) : Except Failure Decimal :=
  match Binary64.Library.elementary f (.ofDecimal a) with
  | .ok x => widen op x
  | .error .range => tooLarge op
  | .error .domain => outsideDomain op a none

def divide (op : String) (a b : Decimal) : Except Failure Decimal := do
  if b.isZero then divisionByZero op
  else Decimal.div .quotient a b

def reciprocal (op : String) (a : Decimal) : Except Failure Decimal :=
  divide op one a

/-- What is left of `a` after as many `b` as fit are taken away, with the sign of `a`. -/
def remainder (a b : Decimal) : Except Failure Decimal := do
  if b.isZero then divisionByZero "%"
  else Decimal.rem .working a b

/-- Fails unless `low ≤ a ≤ high`. -/
def checkRange (op : String) (a low high : Decimal) : Except Failure Unit := do
  if (← a.less low) || (← high.less a) then
    let lowest := low.text
    let highest := high.text
    outsideDomain op a (some s!">= {lowest} and <= {highest}")

/-- The largest exponent for which a power is a product of decimals. -/
def maxExactExponent : Nat := 1000

/-- The integer value of a finite decimal that is an integer. -/
def toInt : Decimal → Int
  | .finite negative c e => Decimal.signed negative (Decimal.magnitude c e)
  | _ => 0

/-- The power `a ^ b`: a product of decimals when `b` is a small integer, a power of doubles
otherwise. -/
def power (a b : Decimal) : Except Failure Decimal := do
  if b.isZero then return one
  else if ← isNegativePowerOfZero then divisionByZero "^"
  else if ← isSmallInteger then
    match ← Decimal.power .working a (toInt b) with
    | .infinite _ => tooLarge "^"
    | r => return r
  else
    match Binary64.Library.power (.ofDecimal a) (.ofDecimal b) with
    | .ok x => widen "^" x
    | .error .range => tooLarge "^"
    | .error .domain => outsideDomain "^" a (some "non-negative for a fractional exponent")
where
  isNegativePowerOfZero : Except Failure Bool := do
    if a.isZero then b.less zero else return false
  isSmallInteger : Except Failure Bool := do
    if b.isIntegral then (← b.abs .plain).atMost (.ofNat maxExactExponent)
    else return false

/-! ### Exponential and logarithms -/

def exp : Decimal → Except Failure Decimal :=
  viaDouble .exp "exp"

def ln (a : Decimal) : Except Failure Decimal := do
  if ← a.atMost zero then outsideDomain "ln" a (some "> 0")
  else viaDouble .log "ln" a

/-- The logarithm of `a` to the base `b`. -/
def log (a b : Decimal) : Except Failure Decimal := do
  if ← a.atMost zero then outsideDomain "log" a (some "> 0")
  else if ← b.atMost zero then outsideDomain "log" b (some "> 0")
  else divide "log" (← ln a) (← ln b)

end Reckon.Numeric
