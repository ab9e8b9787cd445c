import Reckon.Enclosure.Basic

/-!
# Elementary functions on enclosures

Power series for the exponential, the logarithm, sine, cosine and arctangent, each after its
argument has been reduced to where the terms shrink at least by half from one to the next. A
series is summed until its terms have fallen to a few units of the scale; `tail` stands for all
that follow.
-/

namespace Reckon.Enclosure

/-- What the terms that are left out can add up to, in units of the scale. -/
def tail : Nat := 64

/-- Adds up terms `term`, `next 1 term`, … until they are small or `fuel` of them have
been added. -/
def sumSeries (next : Nat → Enclosure → Enclosure) :
    (fuel : Nat) → (k : Nat) → (term sum : Enclosure) → Enclosure
  | 0, _, _, sum => sum
  | fuel + 1, k, term, sum =>
    if term.mid.natAbs ≤ 4 then ⟨sum.mid, sum.radius + term.radius + tail⟩
    else sumSeries next fuel (k + 1) (next k term) (sum.add term)

/-- Adds up `power / 1`, `power' / 3`, `power'' / 5`, … where each power is the one before times
`square`. -/
def sumOdd (p : Nat) (square : Enclosure) :
    (fuel : Nat) → (k : Nat) → (power sum : Enclosure) → Enclosure
  | 0, _, _, sum => sum
  | fuel + 1, k, power, sum =>
    if power.mid.natAbs ≤ 4 then ⟨sum.mid, sum.radius + power.radius + tail⟩
    else sumOdd p square fuel (k + 2) (mul p power square) (sum.add (power.divNat k))

/-- The inverse hyperbolic tangent of a small number. -/
def atanhSmall (p : Nat) (x : Enclosure) : Enclosure :=
  sumOdd p (mul p x x) (p + 8) 1 x ⟨0, 0⟩

/-- The arctangent of a small number. -/
def atanSmall (p : Nat) (x : Enclosure) : Enclosure :=
  sumOdd p (mul p x x).neg (p + 8) 1 x ⟨0, 0⟩

/-- The natural logarithm of two, from `log 2 = 2 * atanh (1 / 3)`. -/
def logTwo (p : Nat) : Enclosure :=
  (atanhSmall p (ofRatio p 1 3)).scaleInt 2

/-- Half the circumference of the unit circle, from `π = 16 * atan (1 / 5) - 4 * atan (1 / 239)`. -/
def pi (p : Nat) : Enclosure :=
  ((atanSmall p (ofRatio p 1 5)).scaleInt 16).sub ((atanSmall p (ofRatio p 1 239)).scaleInt 4)

/-- The exponential of `x` as `(y, k)`, meaning `y * 2 ^ k`, with `y` around one. -/
def exp (p : Nat) (x : Enclosure) : Enclosure × Int :=
  let log2 := logTwo p
  let k := (2 * x.mid + log2.mid) / (2 * log2.mid)
  let r := x.sub (log2.scaleInt k)
  (sumSeries (fun n term => (mul p term r).divNat n) (p + 8) 1 (ofInt p 1) ⟨0, 0⟩, k)

/-- The natural logarithm of a positive number times `2 ^ k`. The number is first brought near
one. -/
def log (p : Nat) (x : Enclosure) (k : Int) : Enclosure :=
  let s : Int := (x.mid.natAbs.log2 : Int) - p
  let y := x.shift (-s)
  let (y, s) := if 3 * twoTo p < 2 * y.mid then (y.shift (-1), s + 1) else (y, s)
  let z := div p (y.sub (ofInt p 1)) (y.add (ofInt p 1))
  ((atanhSmall p z).scaleInt 2).add ((logTwo p).scaleInt (s + k))

/-- Sine and cosine of a number of magnitude at most one. -/
def sinCosSmall (p : Nat) (x : Enclosure) : Enclosure × Enclosure :=
  let square := (mul p x x).neg
  let next (offset n : Nat) (term : Enclosure) :=
    (mul p term square).divNat ((2 * n + offset) * (2 * n + offset - 1))
  (sumSeries (next 1) (p + 8) 1 x ⟨0, 0⟩, sumSeries (next 0) (p + 8) 1 (ofInt p 1) ⟨0, 0⟩)

/-- Sine and cosine. The argument is reduced to the eighth of a turn around zero by
quarter turns. -/
def sinCos (p : Nat) (x : Enclosure) : Enclosure × Enclosure :=
  let twoPi := (pi p).scaleInt 2
  let q := (4 * x.mid + twoPi.mid / 2) / twoPi.mid
  let quarter : Enclosure := ⟨twoPi.mid / 4, twoPi.radius / 4 + 2⟩
  let (s, c) := sinCosSmall p (x.sub (quarter.scaleInt q))
  match (q % 4).toNat with
  | 0 => (s, c)
  | 1 => (c, s.neg)
  | 2 => (s.neg, c.neg)
  | _ => (c.neg, s)

/-- Halves the arctangent: `atan x = 2 * atan (halved x)`. -/
def halveAtan (p : Nat) (x : Enclosure) : Enclosure :=
  div p x ((ofInt p 1).add (sqrt p ((ofInt p 1).add (mul p x x))))

/-- The arctangent of a number that is not negative. -/
def atan (p : Nat) (x : Enclosure) : Enclosure :=
  if x.mid ≤ twoTo p then
    (atanSmall p (halveAtan p (halveAtan p x))).scaleInt 4
  else
    let y := div p (ofInt p 1) x
    ((pi p).shift (-1)).sub ((atanSmall p (halveAtan p (halveAtan p y))).scaleInt 4)

end Reckon.Enclosure
