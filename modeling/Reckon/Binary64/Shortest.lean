import Reckon.Binary64.Basic
import Reckon.Decimal.Text

/-!
# The shortest decimal of a double

Every decimal between the midpoints to the two neighbours of a double reads back as that double;
the midpoints themselves do when the significand is even. `shortest` takes the decimal with the
fewest digits among these, and of several the nearest. For each number of digits only the two
decimals around the double need to be tried.
-/

namespace Reckon.Binary64

/-- The decimals that read back as a double, over a common denominator. -/
structure Neighbourhood where
  value : Nat
  low : Nat
  high : Nat
  denominator : Nat
  closed : Bool

/-- The neighbourhood of `m * 2 ^ e`. Below a power of two the neighbour is only half as far. -/
def neighbourhood (m : Nat) (e : Int) : Neighbourhood :=
  let unit := twoTo e.toNat
  let near := m = twoTo 52 ∧ minExponent < e
  { value := 4 * m * unit
    low := (4 * m - if near then 1 else 2) * unit
    high := (4 * m + 2) * unit
    denominator := 4 * twoTo (-e).toNat
    closed := m % 2 = 0 }

/-- Whether `c * 10 ^ k` reads back. -/
def Neighbourhood.contains (h : Neighbourhood) (c : Nat) (k : Int) : Bool :=
  let x := c * tenTo k.toNat * h.denominator
  let unit := tenTo (-k).toNat
  if h.closed then h.low * unit ≤ x && x ≤ h.high * unit
  else h.low * unit < x && x < h.high * unit

/-- The power of ten of the first digit of `n / d`. -/
def leadingPower (n d : Nat) : Int :=
  if d ≤ n then (Decimal.digitCount (n / d) : Int) - 1 else -(Decimal.digitCount (d / n) : Int)

/-- The decimal with `count` digits nearest to the value among those that read back. -/
def Neighbourhood.candidate? (h : Neighbourhood) (leading : Int) (count : Nat) :
    Option (Nat × Int) :=
  let k := leading + 1 - count
  let n := h.value * tenTo (-k).toNat
  let d := h.denominator * tenTo k.toNat
  let c := n / d
  let nearer := Rounding.halfEven.quotient false n d
  let further := if nearer = c then c + 1 else c
  if h.contains nearer k then some (nearer, k)
  else if h.contains further k then some (further, k)
  else none

/-- The shortest decimal of `m * 2 ^ e` as a coefficient without trailing zeros and a power of
ten. -/
def shortest (m : Nat) (e : Int) : Nat × Int :=
  let h := neighbourhood m e
  let leading := leadingPower h.value h.denominator
  match ((List.range 17).map (· + 1)).findSome? (h.candidate? leading) with
  | some (c, k) =>
    let count := Decimal.digitCount c
    let (c, left) := trim c count
    (c, k + (count - left : Nat))
  | none => (0, 0)
where
  /-- Divides out trailing zeros, at most `n`; yields how many are left of these. -/
  trim : Nat → Nat → Nat × Nat
    | c, 0 => (c, 0)
    | c, n + 1 => if c % 10 = 0 then trim (c / 10) n else (c, n + 1)

/-- Whether a double with this power of ten of its first digit is written without a power of ten. -/
def isPositional (leading : Int) : Bool :=
  -4 ≤ leading && leading < 16

/-- The shortest decimal in the form in which it is written: integers below `10 ^ 16` keep one
zero behind the point. -/
def toDecimal : Binary64 → Decimal
  | .finite negative m e =>
    if m = 0 then .finite negative 0 (-1)
    else
      let (c, k) := shortest m e
      if 0 ≤ k ∧ isPositional (k + Decimal.digitCount c - 1) then
        .finite negative (c * tenTo (k.toNat + 1)) (-1)
      else .finite negative c k
  | .infinite negative => .infinite negative
  | .nan => .nan

/-- A power of ten with its sign and at least two digits. -/
def powerText (e : Int) : List Char :=
  (if e < 0 then '-' else '+') ::
    (if e.natAbs < 10 then '0' :: Decimal.digits e.natAbs else Decimal.digits e.natAbs)

/-- The shortest decimal of a double as text. -/
def text (x : Binary64) : List Char :=
  match x with
  | .finite negative m e =>
    if m = 0 then Decimal.positional x.toDecimal
    else
      let (c, k) := shortest m e
      let leading := k + Decimal.digitCount c - 1
      if isPositional leading then Decimal.positional x.toDecimal
      else
        let point := Decimal.digitCount c - 1
        Decimal.signText negative ++ Decimal.withPoint (Decimal.digits c) point ++
          'e' :: powerText leading
  | .infinite negative => Decimal.signText negative ++ ['i', 'n', 'f']
  | .nan => ['n', 'a', 'n']

end Reckon.Binary64
