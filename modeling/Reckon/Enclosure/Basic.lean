import Reckon.Binary64.Basic

/-!
# Enclosures of real numbers

An enclosure at the scale `p` holds every real `x` with `|x * 2 ^ p - mid| ≤ radius`. The
operations keep the results of all reals that their operands hold; rounding to the grid adds to
the radius. The scale is not part of the enclosure and is passed to the operations that need it.
-/

namespace Reckon

structure Enclosure where
  mid : Int
  radius : Nat

namespace Enclosure

/-- The integer part of the square root, by Newton's method from a start above it. -/
def rootBelow (n x : Nat) : Nat :=
  let y := (x + n / x) / 2
  if y < x then rootBelow n y else x
termination_by x

def natSqrt (n : Nat) : Nat :=
  if n = 0 then 0 else rootBelow n (twoTo (n.log2 / 2 + 1))

def ofInt (p : Nat) (n : Int) : Enclosure :=
  ⟨n * twoTo p, 0⟩

/-- The fraction `n / d`. -/
def ofRatio (p : Nat) (n : Int) (d : Nat) : Enclosure :=
  ⟨n * twoTo p / d, 1⟩

/-- The number `m * 2 ^ e`. -/
def ofDyadic (p : Nat) (m : Int) (e : Int) : Enclosure :=
  let shift := e + p
  if 0 ≤ shift then ⟨m * twoTo shift.toNat, 0⟩ else ⟨m / twoTo (-shift).toNat, 1⟩

def neg (a : Enclosure) : Enclosure :=
  ⟨-a.mid, a.radius⟩

def add (a b : Enclosure) : Enclosure :=
  ⟨a.mid + b.mid, a.radius + b.radius⟩

def sub (a b : Enclosure) : Enclosure :=
  ⟨a.mid - b.mid, a.radius + b.radius⟩

def scaleInt (a : Enclosure) (k : Int) : Enclosure :=
  ⟨a.mid * k, a.radius * k.natAbs⟩

def mul (p : Nat) (a b : Enclosure) : Enclosure :=
  ⟨a.mid * b.mid / twoTo p,
    (a.mid.natAbs * b.radius + b.mid.natAbs * a.radius + a.radius * b.radius) / twoTo p + 2⟩

def divNat (a : Enclosure) (k : Nat) : Enclosure :=
  ⟨a.mid / k, a.radius / k + 2⟩

/-- The quotient; when the divisor may be zero, an enclosure that decides nothing. -/
def div (p : Nat) (a b : Enclosure) : Enclosure :=
  let n := b.mid.natAbs
  if n ≤ b.radius then ⟨0, twoTo (4 * p)⟩
  else
    ⟨a.mid * twoTo p / b.mid,
      (a.radius * n + a.mid.natAbs * b.radius) * twoTo p / (n * (n - b.radius)) + 2⟩

/-- The square root of a number that is not negative. -/
def sqrt (p : Nat) (a : Enclosure) : Enclosure :=
  let low := natSqrt ((a.mid - a.radius).toNat * twoTo p)
  let high := natSqrt ((a.mid + a.radius).toNat * twoTo p) + 1
  ⟨((low + high) / 2 : Nat), (high - low) / 2 + 1⟩

/-- The number times `2 ^ k`. -/
def shift (a : Enclosure) (k : Int) : Enclosure :=
  if 0 ≤ k then ⟨a.mid * twoTo k.toNat, a.radius * twoTo k.toNat⟩
  else ⟨a.mid / twoTo (-k).toNat, a.radius / twoTo (-k).toNat + 2⟩

/-- The double nearest to every number of the enclosure times `2 ^ k`, if it is the same for all. -/
def round? (p : Nat) (a : Enclosure) (k : Int) : Option Binary64 :=
  let low := a.mid.natAbs - a.radius
  let high := a.mid.natAbs + a.radius
  let e := k - p
  let nearest (n : Nat) := Binary64.ofRatio (a.mid < 0) (n * twoTo e.toNat) (twoTo (-e).toNat)
  if 0 < low ∧ nearest low = nearest high then some (nearest low) else none

end Enclosure

end Reckon
