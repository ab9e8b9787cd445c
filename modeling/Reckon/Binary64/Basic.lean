import Reckon.Decimal.Basic

/-!
# Double precision numbers

A finite double is a significand below `2 ^ 53` times a power of two. `ofRatio` rounds a positive
fraction to the nearest double, a tie to the even significand; `ofDecimal` does so for a decimal
of any length.
-/

namespace Reckon

/-- A power of two. -/
abbrev twoTo (n : Nat) : Nat :=
  Nat.pow 2 n

inductive Binary64 where
  | finite (negative : Bool) (significand : Nat) (exponent : Int)
  | infinite (negative : Bool)
  | nan
  deriving DecidableEq, Inhabited

namespace Binary64

def minExponent : Int := -1074
def maxExponent : Int := 971

def zero (negative : Bool) : Binary64 := .finite negative 0 minExponent
def one : Binary64 := .finite false (twoTo 52) (-52)

def flip : Binary64 → Binary64
  | .finite negative m e => .finite (!negative) m e
  | .infinite negative => .infinite (!negative)
  | .nan => .nan

def isNegative : Binary64 → Bool
  | .finite negative _ _ => negative
  | .infinite negative => negative
  | .nan => false

/-- The exponent of the double nearest to `n / d` from below: the one that leaves 53 binary digits
in front of the point, if it is not too small. -/
def exponentOf (n d : Nat) : Int :=
  let e := (n.log2 : Int) - d.log2 - 53
  let digits := n * twoTo (-e).toNat / (d * twoTo e.toNat)
  max minExponent (if digits < twoTo 53 then e else e + 1)

/-- The double nearest to `n / d`, with the given sign. -/
def ofRatio (negative : Bool) (n d : Nat) : Binary64 :=
  if n = 0 then zero negative
  else
    let e := exponentOf n d
    let m := Rounding.halfEven.quotient false (n * twoTo (-e).toNat) (d * twoTo e.toNat)
    let (m, e) := if m < twoTo 53 then (m, e) else (m / 2, e + 1)
    if e ≤ maxExponent then .finite negative m e else .infinite negative

/-- The double nearest to a decimal. -/
def ofDecimal : Decimal → Binary64
  | .finite negative c e =>
    let leading := e + Decimal.digitCount c - 1
    if c = 0 ∨ leading < -330 then zero negative
    else if 310 < leading then .infinite negative
    else ofRatio negative (c * tenTo e.toNat) (tenTo (-e).toNat)
  | .infinite negative => .infinite negative
  | .nan => .nan

end Binary64

end Reckon
