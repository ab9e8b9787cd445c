import Reckon.Numeric.Basic

/-!
# Hyperbolic functions

Hyperbolic sine, cosine and tangent, their reciprocals, and the inverses of all six.
-/

namespace Reckon.Numeric

open Decimal (zero one minusOne)

variable [Binary64.Library]

def sinh : Decimal → Except Failure Decimal := viaDouble .sinh "sinh"
def cosh : Decimal → Except Failure Decimal := viaDouble .cosh "cosh"
def tanh : Decimal → Except Failure Decimal := viaDouble .tanh "tanh"

def cotanh (a : Decimal) : Except Failure Decimal := do reciprocal "cotanh" (← tanh a)
def sech (a : Decimal) : Except Failure Decimal := do reciprocal "sech" (← cosh a)
def csch (a : Decimal) : Except Failure Decimal := do reciprocal "csch" (← sinh a)

/-! ### Inverses -/

def asinh : Decimal → Except Failure Decimal := viaDouble .asinh "asinh"

def acosh (a : Decimal) : Except Failure Decimal := do
  if ← a.less one then outsideDomain "acosh" a (some ">= 1")
  else viaDouble .acosh "acosh" a

def atanh (a : Decimal) : Except Failure Decimal := do
  if (← a.atMost minusOne) || (← one.atMost a) then
    outsideDomain "atanh" a (some "> -1 and < 1")
  else viaDouble .atanh "atanh" a

def acoth (a : Decimal) : Except Failure Decimal := do
  if (← minusOne.atMost a) && (← a.atMost one) then
    outsideDomain "acoth" a (some "< -1 or > 1")
  else viaDouble .atanh "acoth" (← Decimal.div .quotient one a)

def asech (a : Decimal) : Except Failure Decimal := do
  if (← a.atMost zero) || (← one.less a) then
    outsideDomain "asech" a (some "> 0 and <= 1")
  else viaDouble .acosh "asech" (← Decimal.div .quotient one a)

def acsch (a : Decimal) : Except Failure Decimal := do
  if a.isZero then outsideDomain "acsch" a (some "!= 0")
  else viaDouble .asinh "acsch" (← Decimal.div .quotient one a)

end Reckon.Numeric
