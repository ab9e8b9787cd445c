import Reckon.Decimal.Digits

/-!
# Decimal numbers

A decimal is a sign, a coefficient and a power of ten, so `2.50` and `2.5` are different forms of
one number; besides these there are two infinities and a value that is no number. A `Context` says
how many digits a result keeps and which way it is rounded. `Context.round` is the one place where
digits are lost: every operation computes exactly and then rounds once.

The range of exponents is the same in every context. A result above it is an overflow; below it
digits are given up one by one until only zero is left.
-/

namespace Reckon

inductive Decimal where
  | finite (negative : Bool) (coefficient : Nat) (exponent : Int)
  | infinite (negative : Bool)
  | nan
  deriving DecidableEq, Inhabited

/-- Why an operation has no result. -/
inductive Signal where
  | invalidOperation
  /-- A remainder is asked for, but the whole part of the quotient has too many digits. -/
  | divisionImpossible
  /-- Zero divided by zero. -/
  | divisionUndefined
  | divisionByZero
  | overflow
  deriving DecidableEq

namespace Signal

def name : Signal → String
  | invalidOperation => "InvalidOperation"
  | divisionImpossible => "DivisionImpossible"
  | divisionUndefined => "DivisionUndefined"
  | divisionByZero => "DivisionByZero"
  | overflow => "Overflow"

def message (s : Signal) : String :=
  let name := s.name
  s!"[<class 'decimal.{name}'>]"

end Signal

inductive Rounding where
  | halfEven
  | halfUp
  | down
  | floor
  | ceiling
  deriving DecidableEq

structure Context where
  digits : Nat
  rounding : Rounding

/-- Sums, differences, products and powers. -/
def Context.working : Context := ⟨50, .halfEven⟩

/-- Quotients. -/
def Context.quotient : Context := ⟨20, .halfEven⟩

/-- Signs, halves and printed fractions. -/
def Context.plain : Context := ⟨28, .halfEven⟩

/-- The quotient `n / d` rounded to a natural number, as the magnitude of a number of the given
sign. -/
def Rounding.quotient (r : Rounding) (negative : Bool) (n d : Nat) : Nat :=
  let q := n / d
  let rest := n % d
  if rest = 0 then q
  else
    match r with
    | .down => q
    | .floor => if negative then q + 1 else q
    | .ceiling => if negative then q else q + 1
    | .halfUp => if d ≤ 2 * rest then q + 1 else q
    | .halfEven =>
      if 2 * rest < d then q else if d < 2 * rest then q + 1 else if q % 2 = 0 then q else q + 1

/-- The quotient `c / 10 ^ k` rounded. One digit more than `c` has is as good as any larger `k`. -/
def Rounding.dropDigits (r : Rounding) (negative : Bool) (c k : Nat) : Nat :=
  r.quotient negative c (tenTo (min k (Decimal.digitCount c + 1)))

namespace Context

def maxExponent : Int := 999999
def minExponent : Int := -999999

/-- The exponent of the smallest positive number. -/
def tiny (ctx : Context) : Int :=
  minExponent - (ctx.digits - 1)

/-- The decimal nearest to `coefficient * 10 ^ exponent` that the context can hold. -/
def round (ctx : Context) (negative : Bool) (coefficient : Nat) (exponent : Int) :
    Except Signal Decimal :=
  if coefficient = 0 then
    .ok (.finite negative 0 (max ctx.tiny (min exponent maxExponent)))
  else
    let leading := exponent + Decimal.digitCount coefficient - 1
    if maxExponent < leading then .error .overflow
    else
      let target := max exponent (max ctx.tiny (leading - ctx.digits + 1))
      let c := ctx.rounding.dropDigits negative coefficient (target - exponent).toNat
      if c < tenTo ctx.digits then .ok (.finite negative c target)
      else if leading < maxExponent then .ok (.finite negative (c / 10) (target + 1))
      else .error .overflow

end Context

namespace Decimal

def ofNat (n : Nat) : Decimal :=
  .finite false n 0

def zero : Decimal := ofNat 0
def one : Decimal := ofNat 1
def two : Decimal := ofNat 2
def minusOne : Decimal := .finite true 1 0
def minusTwo : Decimal := .finite true 2 0
def half : Decimal := .finite false 5 (-1)

def isFinite : Decimal → Bool
  | .finite .. => true
  | _ => false

def isNegative : Decimal → Bool
  | .finite negative _ _ => negative
  | .infinite negative => negative
  | .nan => false

/-- The number with its sign turned, digits untouched. -/
def flip : Decimal → Decimal
  | .finite negative c e => .finite (!negative) c e
  | .infinite negative => .infinite (!negative)
  | .nan => .nan

/-- The power of ten of the first digit; zero for values that are not finite. -/
def leadingExponent : Decimal → Int
  | .finite _ c e => e + digitCount c - 1
  | _ => 0

/-! ### Order -/

/-- Compares `c * 10 ^ e` with `c' * 10 ^ e'`. -/
def compareMagnitude (c : Nat) (e : Int) (c' : Nat) (e' : Int) : Ordering :=
  if c = 0 then if c' = 0 then .eq else .lt
  else if c' = 0 then .gt
  else
    match compare (e + digitCount c) (e' + digitCount c') with
    | .eq => compare (c * tenTo (e - e').toNat) (c' * tenTo (e' - e).toNat)
    | o => o

/-- The order of two values as numbers; none if one of them is no number. -/
def compare? : Decimal → Decimal → Option Ordering
  | .nan, _ => none
  | _, .nan => none
  | .infinite m, .infinite n => some (if m = n then .eq else if m then .lt else .gt)
  | .infinite m, .finite .. => some (if m then .lt else .gt)
  | .finite .., .infinite n => some (if n then .gt else .lt)
  | .finite m c e, .finite n c' e' =>
    if c = 0 ∧ c' = 0 then some .eq
    else if m ∧ c ≠ 0 then
      if n ∧ c' ≠ 0 then some (compareMagnitude c' e' c e) else some .lt
    else if n ∧ c' ≠ 0 then some .gt
    else some (compareMagnitude c e c' e')

/-- Whether two values are the same number. A value that is no number differs from all. -/
def same (a b : Decimal) : Bool :=
  compare? a b == some .eq

def isZero (a : Decimal) : Bool :=
  a.same zero

/-- The order of two numbers. -/
def order (a b : Decimal) : Except Signal Ordering :=
  match compare? a b with
  | some o => .ok o
  | none => .error .invalidOperation

def less (a b : Decimal) : Except Signal Bool :=
  return (← order a b).isLT

def atMost (a b : Decimal) : Except Signal Bool :=
  return (← order a b).isLE

/-! ### Integers -/

/-- Whether the value is a finite integer. -/
def isIntegral : Decimal → Bool
  | .finite _ c e => 0 ≤ e || c = 0 || ((-e).toNat < digitCount c && c % tenTo (-e).toNat = 0)
  | _ => false

/-- Rounds to an integer, whatever its size. -/
def toIntegral (r : Rounding) : Decimal → Decimal
  | .finite negative c e =>
    if 0 ≤ e then .finite negative c e
    else .finite negative (r.dropDigits negative c (-e).toNat) 0
  | a => a

/-- The integer part of a finite value, without its sign. -/
def magnitude (c : Nat) (e : Int) : Nat :=
  if 0 ≤ e then c * tenTo e.toNat
  else if (-e).toNat < digitCount c then c / tenTo (-e).toNat
  else 0

end Decimal

end Reckon
