import Reckon.Numeric.Basic

/-!
# Integers

Factorials of natural numbers up to a thousand, and rounding to integers.
-/

namespace Reckon.Numeric

open Decimal (zero half)

/-- A natural number that has a factorial. -/
def factorialArgument (op : String) (a : Decimal) : Except Failure Nat := do
  if ← isNotNatural then
    throw (.undefined (.invalidArgument op a "a non-negative integer"))
  else if ← (Decimal.ofNat maxFactorial).less a then
    throw (.undefined (.invalidArgument op a s!"at most {maxFactorial}"))
  else return (toInt a).natAbs
where
  isNotNatural : Except Failure Bool := do
    if a.isIntegral then a.less zero else return true

def factorial : Nat → Nat
  | 0 => 1
  | n + 1 => (n + 1) * factorial n

/-- The product of `n`, `n - 2`, `n - 4` and so on. -/
def semifactorial : Nat → Nat
  | 0 | 1 => 1
  | n + 2 => (n + 2) * semifactorial n

def fac (a : Decimal) : Except Failure Decimal :=
  return .ofNat (factorial (← factorialArgument "fac" a))

def sfac (a : Decimal) : Except Failure Decimal :=
  return .ofNat (semifactorial (← factorialArgument "sfac" a))

/-- The natural logarithm of a factorial, summed up factor by factor. -/
def logFactorial [Binary64.Library] (a : Decimal) : Except Failure Decimal := do
  let n ← factorialArgument "log_factorial" a
  (List.range' 2 (n - 1)).foldlM (fun sum i => do
    let term ← ln (.ofNat i)
    (Decimal.add .working sum term).mapError .signal) zero

/-- The part behind the point, with the sign of `a`. -/
def fpart (a : Decimal) : Except Failure Decimal :=
  (Decimal.sub .plain a (a.toIntegral .down)).mapError .signal

/-- The nearest integer, the larger of two. -/
def round (a : Decimal) : Except Failure Decimal := do
  return (← Decimal.add .plain a half).toIntegral .floor

def ceil (a : Decimal) : Except Failure Decimal :=
  .ok (a.toIntegral .ceiling)

def floor (a : Decimal) : Except Failure Decimal :=
  .ok (a.toIntegral .floor)

end Reckon.Numeric
