import Reckon.Numeric.Angle

/-!
# Circular functions

Sine, cosine and tangent, the functions made of them, and their inverses, all in radians.
-/

namespace Reckon.Numeric

open Decimal (zero one two minusOne minusTwo half)

variable [Binary64.Library]

def sin : Decimal → Except Failure Decimal := viaDouble .sin "sin"
def cos : Decimal → Except Failure Decimal := viaDouble .cos "cos"
def tan : Decimal → Except Failure Decimal := viaDouble .tan "tan"

def cotan (a : Decimal) : Except Failure Decimal := do reciprocal "cotan" (← tan a)
def sec (a : Decimal) : Except Failure Decimal := do reciprocal "sec" (← cos a)
def csc (a : Decimal) : Except Failure Decimal := do reciprocal "csc" (← sin a)

def exsec (a : Decimal) : Except Failure Decimal := do Decimal.sub .working (← sec a) one
def vers (a : Decimal) : Except Failure Decimal := do Decimal.sub .working one (← cos a)
def covers (a : Decimal) : Except Failure Decimal := do Decimal.sub .working one (← sin a)
def hav (a : Decimal) : Except Failure Decimal := do Decimal.mul .working half (← vers a)

/-- The sine divided by the angle, one at zero. -/
def sinc (a : Decimal) : Except Failure Decimal := do
  if a.isZero then return one else divide "sinc" (← sin a) a

/-! ### Inverses -/

def asin (a : Decimal) : Except Failure Decimal := do
  checkRange "asin" a minusOne one
  viaDouble .asin "asin" a

def acos (a : Decimal) : Except Failure Decimal := do
  checkRange "acos" a minusOne one
  viaDouble .acos "acos" a

def atan : Decimal → Except Failure Decimal := viaDouble .atan "atan"

def acotan (a : Decimal) : Except Failure Decimal := do
  if a.isZero then Decimal.div .quotient pi two
  else atan (← Decimal.div .quotient one a)

/-- The inverse of a function through the inverse `f` of its reciprocal. -/
def inverseOfReciprocal (f : Binary64.Elementary) (op : String) (a : Decimal) :
    Except Failure Decimal := do
  let inverse ← reciprocal op a
  checkRange op inverse minusOne one
  viaDouble f op inverse

def asec (a : Decimal) : Except Failure Decimal := do
  checkRange "asec" a minusOne one
  inverseOfReciprocal .acos "asec" a

def acsc (a : Decimal) : Except Failure Decimal := do
  checkRange "acsc" a minusOne one
  inverseOfReciprocal .asin "acsc" a

def aexsec (a : Decimal) : Except Failure Decimal := do
  checkRange "aexsec" a minusTwo zero
  inverseOfReciprocal .acos "aexsec" (← Decimal.add .working one a)

def avers (a : Decimal) : Except Failure Decimal := do
  checkRange "avers" a zero two
  acos (← Decimal.sub .working one a)

def acovers (a : Decimal) : Except Failure Decimal := do
  checkRange "acovers" a zero two
  asin (← Decimal.sub .working one a)

def ahav (a : Decimal) : Except Failure Decimal := do
  checkRange "ahav" a zero one
  acos (← Decimal.sub .working one (← Decimal.mul .working two a))

end Reckon.Numeric
