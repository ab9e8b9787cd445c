import Reckon.Numeric.Basic

/-!
# Square root

The square root by Newton's method on fifty places behind the point, after the number has been
moved between one and a hundred by an even power of ten. Guesses are rounded half up; the
iteration ends when two successive guesses agree and the square of the last is less than one off.
-/

namespace Reckon.Numeric

open Decimal (zero one two)

/-- Twelve digits more than the places that are kept. -/
def rootContext : Context := ⟨62, .halfUp⟩

/-- How many places behind the point a guess has. -/
def rootPlaces : Nat := 50

def maxRootSteps : Nat := 50

/-- A power of ten with about half as many digits as the integer part of `a`. -/
def firstGuess : Decimal → Except Failure Decimal
  | .finite _ c e =>
    let length := Decimal.digitCount (Decimal.magnitude c e)
    .ok (.finite false 1 ((length - 1) / 2 : Nat))
  | .infinite _ => .error .infiniteInteger
  | .nan => .error (.signal .invalidOperation)

/-- The mean of the guess and the number divided by it. -/
def improve (a guess : Decimal) : Except Signal Decimal := do
  let other ← Decimal.quantize rootContext (← Decimal.div rootContext a guess) (-rootPlaces)
  let sum ← Decimal.add rootContext other guess
  Decimal.quantize rootContext (← Decimal.div rootContext sum two) (-rootPlaces)

def newton (a : Decimal) : (steps : Nat) → (guess : Decimal) → Except Signal Decimal
  | 0, guess => .ok guess
  | steps + 1, guess => do
    let next ← improve a guess
    let error ← Decimal.sub rootContext a (← Decimal.mul rootContext next next)
    if guess.same next then
      if ← (← error.abs rootContext).less one then return next
      else newton a steps next
    else newton a steps next

def sqrt (a : Decimal) : Except Failure Decimal := do
  if ← a.less zero then outsideDomain "sqrt" a (some ">= 0")
  else if a.isZero then return zero
  else
    let half := a.leadingExponent / 2
    let mantissa ← Decimal.scale rootContext a (-2 * half)
    let root ← newton mantissa maxRootSteps (← firstGuess mantissa)
    Decimal.plus .working (← Decimal.scale rootContext root half)

end Reckon.Numeric
