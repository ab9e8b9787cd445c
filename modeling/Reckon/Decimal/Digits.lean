/-!
# Numbers written in base ten

`digits` writes a natural number, `natValue` adds up digits, `digitCount` is the length of `digits`
without writing them.
-/

namespace Reckon

/-- A power of ten. -/
abbrev tenTo (n : Nat) : Nat :=
  Nat.pow 10 n

namespace Decimal

def digitChar (d : Nat) : Char :=
  Char.ofNat (48 + d)

/-- The digits of `n` in front of `acc`. -/
def digitsOnto (n : Nat) (acc : List Char) : List Char :=
  if n < 10 then digitChar n :: acc else digitsOnto (n / 10) (digitChar (n % 10) :: acc)
termination_by n
decreasing_by omega

/-- The digits of `n`, most significant first; zero is written as one digit. -/
def digits (n : Nat) : List Char :=
  digitsOnto n []

/-- The value of a list of digit values, most significant first. -/
def natValue (ds : List Nat) : Nat :=
  ds.foldl (fun v d => 10 * v + d) 0

/-- Counts upwards from `k`, given `p = 10 ^ k`, to the first power of ten above `n`. -/
def countFrom (n p k : Nat) (hp : 0 < p) : Nat :=
  if n < p then k else countFrom n (10 * p) (k + 1) (by omega)
termination_by n + 1 - p
decreasing_by omega

/-- How many digits `n` has; zero has one. The count starts below the answer, at three digits for
every ten bits, since `10 ^ 3 < 2 ^ 10`. -/
def digitCount (n : Nat) : Nat :=
  if n < 10 then 1
  else
    let k := 3 * (n.log2 / 10)
    countFrom n (tenTo k) k (Nat.pow_pos (by decide))

end Decimal

end Reckon
