import Reckon.Decimal.Basic

/-!
# Decimal arithmetic

Sum, difference, product, quotient, remainder, integer power and changes of exponent. Each result
is the exact one rounded once by the context, in the form closest to the natural exponent of the
operation: the smaller exponent for sums, the sum of exponents for products, their difference for
quotients.
-/

namespace Reckon.Decimal

variable (ctx : Context)

/-- The value rounded, without a negative zero. -/
def plus : Decimal → Except Signal Decimal
  | .finite negative c e => ctx.round (negative && c != 0) c e
  | a => .ok a

def minus (a : Decimal) : Except Signal Decimal :=
  plus ctx a.flip

def abs (a : Decimal) : Except Signal Decimal :=
  if a.isNegative then minus ctx a else plus ctx a

/-- A signed natural number. -/
def signed (negative : Bool) (n : Nat) : Int :=
  if negative then -(n : Int) else n

/-- The number `c * 10 ^ e` as the smaller summand beside a number whose last kept digit has
exponent `floor + 2`: whatever lies wholly below `floor` has the effect of one unit there. -/
def asSmallSummand (floor : Int) (c : Nat) (e : Int) : Nat × Int :=
  if e + digitCount c - 1 < floor then (min c 1, floor) else (c, e)

/-- The sum of a number with the larger exponent and one with the smaller. -/
def addAligned (m : Bool) (c : Nat) (e : Int) (n : Bool) (c' : Nat) (e' : Int) :
    Except Signal Decimal :=
  let floor := e - 1 + min 0 ((digitCount c : Int) - ctx.digits - 1)
  let small := if c ≠ 0 ∧ e' < e then asSmallSummand floor c' e' else (c', e')
  let big := if c = 0 then 0 else c * tenTo (e - small.2).toNat
  let sum := signed m big + signed n small.1
  ctx.round (if sum = 0 then m && n else sum < 0) sum.natAbs small.2

def add : Decimal → Decimal → Except Signal Decimal
  | .nan, _ => .ok .nan
  | _, .nan => .ok .nan
  | .infinite m, .infinite n => if m = n then .ok (.infinite m) else .error .invalidOperation
  | .infinite m, .finite .. => .ok (.infinite m)
  | .finite .., .infinite n => .ok (.infinite n)
  | .finite m c e, .finite n c' e' =>
    if e < e' then addAligned ctx n c' e' m c e else addAligned ctx m c e n c' e'

def sub (a b : Decimal) : Except Signal Decimal :=
  add ctx a b.flip

def mul : Decimal → Decimal → Except Signal Decimal
  | .nan, _ => .ok .nan
  | _, .nan => .ok .nan
  | .infinite m, .infinite n => .ok (.infinite (m != n))
  | .infinite m, .finite n c _ =>
    if c = 0 then .error .invalidOperation else .ok (.infinite (m != n))
  | .finite m c _, .infinite n =>
    if c = 0 then .error .invalidOperation else .ok (.infinite (m != n))
  | .finite m c e, .finite n c' e' => ctx.round (m != n) (c * c') (e + e')

/-- Divides trailing zeros out of `c`, at most `n` of them; yields the rest and how
many are left. -/
def trimZeros : Nat → Nat → Nat × Nat
  | c, 0 => (c, 0)
  | c, n + 1 => if c % 10 = 0 then trimZeros (c / 10) n else (c, n + 1)

/-- The quotient of two positive coefficients, with `ideal` the difference of their exponents. An
inexact quotient is known to two digits more than the context keeps, and a final one stands for the
rest; an exact one drops zeros towards the ideal exponent. -/
def divCoefficients (negative : Bool) (c c' : Nat) (ideal : Int) : Except Signal Decimal :=
  let shift : Int := (digitCount c' : Int) - digitCount c + ctx.digits + 1
  let n := c * tenTo shift.toNat
  let d := c' * tenTo (-shift).toNat
  let q := n / d
  if n % d = 0 then
    let (q, left) := trimZeros q shift.toNat
    ctx.round negative q (ideal - min shift left)
  else ctx.round negative (10 * q + 1) (ideal - shift - 1)

def div : Decimal → Decimal → Except Signal Decimal
  | .nan, _ => .ok .nan
  | _, .nan => .ok .nan
  | .infinite _, .infinite _ => .error .invalidOperation
  | .infinite m, .finite n _ _ => .ok (.infinite (m != n))
  | .finite m _ _, .infinite n => .ok (.finite (m != n) 0 ctx.tiny)
  | .finite m c e, .finite n c' e' =>
    if c' = 0 then .error (if c = 0 then .divisionUndefined else .divisionByZero)
    else if c = 0 then ctx.round (m != n) 0 (e - e')
    else divCoefficients ctx (m != n) c c' (e - e')

/-- What is left of the first number when the second is taken from it as often as it fits. There
is no answer when that is too often to be counted with the digits of the context. -/
def rem : Decimal → Decimal → Except Signal Decimal
  | .nan, _ => .ok .nan
  | _, .nan => .ok .nan
  | .infinite _, _ => .error .invalidOperation
  | .finite m c e, .infinite _ => ctx.round m c e
  | .finite m c e, .finite _ c' e' =>
    if c' = 0 then .error (if c = 0 then .divisionUndefined else .invalidOperation)
    else if c = 0 then ctx.round m 0 (min e e')
    else
      let gap := (e + digitCount c) - (e' + digitCount c')
      if ctx.digits < gap then .error .divisionImpossible
      else if gap < 0 ∧ e ≤ e' then ctx.round m c e
      else
        let n := c * tenTo (e - e').toNat
        let d := c' * tenTo (e' - e).toNat
        if digitCount (n / d) ≤ ctx.digits then ctx.round m (n % d) (min e e')
        else .error .divisionImpossible

/-- The product `a * 10 ^ n`. -/
def scale (a : Decimal) (n : Int) : Except Signal Decimal :=
  match a with
  | .nan => .ok .nan
  | .infinite negative =>
    if n.natAbs ≤ 2 * (Context.maxExponent.toNat + ctx.digits) then .ok (.infinite negative)
    else .error .invalidOperation
  | .finite negative c e =>
    if n.natAbs ≤ 2 * (Context.maxExponent.toNat + ctx.digits) then ctx.round negative c (e + n)
    else .error .invalidOperation

/-- The value with the given exponent, rounded if it had digits below. -/
def quantize (a : Decimal) (target : Int) : Except Signal Decimal :=
  match a with
  | .nan => .ok .nan
  | .infinite _ => .error .invalidOperation
  | .finite negative c e =>
    if c = 0 then ctx.round negative 0 target
    else if ctx.digits < digitCount c + (e - target) then .error .invalidOperation
    else if target ≤ e then ctx.round negative (c * tenTo (e - target).toNat) target
    else ctx.round negative (ctx.rounding.dropDigits negative c (target - e).toNat) target

/-- The value rounded, then without trailing zeros. -/
def normalize (a : Decimal) : Except Signal Decimal := do
  match ← plusSigned a with
  | .finite negative c e =>
    if c = 0 then return .finite negative 0 0
    else
      let room := (Context.maxExponent - e).toNat
      let (c, left) := trimZeros c room
      return .finite negative c (e + (room - left : Nat))
  | a => return a
where
  /-- The value rounded, a negative zero included. -/
  plusSigned : Decimal → Except Signal Decimal
    | .finite negative c e => ctx.round negative c e
    | a => .ok a

/-! ### Integer powers -/

/-- The power of a positive number by squaring, from the leading binary digit of the exponent on. -/
def powerBySquaring (base : Decimal) (n : Nat) : Except Signal Decimal :=
  if n ≤ 1 then .ok base
  else do
    let root ← powerBySquaring base (n / 2)
    let square ← mul ctx root root
    if n % 2 = 1 then mul ctx square base else return square
termination_by n
decreasing_by omega

/-- A number of magnitude one to the power `n`: a one with as many zeros behind the point as the
factors have together, as far as the context goes. -/
def powerOfUnit (negative : Bool) (e n : Int) : Decimal :=
  if n < 0 then .finite negative 1 0
  else
    let zeros := min (-e * n).toNat (ctx.digits - 1)
    .finite negative (tenTo zeros) (-zeros)

/-- A number to the power of an integer. The product is built with a few digits more than the
context keeps and then rounded. -/
def power (a : Decimal) (n : Int) : Except Signal Decimal :=
  let odd := n % 2 = 1
  match a with
  | .nan => .ok .nan
  | .infinite negative =>
    if n = 0 then .ok one
    else if n < 0 then .ok (.finite (negative && odd) 0 0)
    else .ok (.infinite (negative && odd))
  | .finite negative c e =>
    let sign := negative && odd
    if c = 0 then
      if n = 0 then .error .invalidOperation
      else if n < 0 then .ok (.infinite sign)
      else .ok (.finite sign 0 0)
    else if n = 0 then .ok one
    else if compareMagnitude c e 1 0 = .eq then .ok (powerOfUnit ctx sign e n)
    else do
      let digits := ctx.digits + digitCount n.natAbs + 2
      let base : Decimal := .finite false c e
      let result ←
        if n < 0 then
          let wide : Context := ⟨digits + 1, .halfEven⟩
          powerBySquaring wide (← div wide one base) n.natAbs
        else powerBySquaring ⟨digits, .halfEven⟩ base n.natAbs
      match result with
      | .finite _ c e => ctx.round sign c e
      | .infinite _ => .ok (.infinite sign)
      | .nan => .ok .nan

end Reckon.Decimal
