import Reckon.Enclosure.Series

/-!
# Elementary functions of doubles

The value of an elementary function at a double is the double nearest to the real value. An
enclosure of the real value settles which one that is as soon as all its numbers round alike;
until then the scale is doubled. A function has no value outside its domain, and none where the
real value is beyond the largest double.
-/

namespace Reckon.Binary64

/-- Why a function has no value. -/
inductive Fault where
  | domain
  | range
  deriving DecidableEq

/-- The functions of one argument. -/
inductive Elementary where
  | sin | cos | tan | asin | acos | atan
  | sinh | cosh | tanh | asinh | acosh | atanh
  | exp | log
  deriving DecidableEq

/-- The double nearest to the real that `approximate` encloses at every scale, as `(y, k)` for `y
* 2 ^ k`. If no scale that is tried decides, the real is taken to be the middle of the last
enclosure. -/
def settle (approximate : Nat → Enclosure × Int) : (tries : Nat) → (p : Nat) → Binary64
  | 0, p =>
    let (y, k) := approximate p
    let e := k - p
    ofRatio (y.mid < 0) (y.mid.natAbs * twoTo e.toNat) (twoTo (-e).toNat)
  | tries + 1, p =>
    let (y, k) := approximate p
    match y.round? p k with
    | some x => x
    | none => settle approximate tries (2 * p)

/-- How many scales are tried. -/
def tries : Nat := 7

/-- The power of two of the first binary digit. -/
def leading (m : Nat) (e : Int) : Int :=
  m.log2 + e

/-- A first scale that leaves a hundred binary digits even of a value as small as `m * 2 ^ e`. -/
def firstScale (m : Nat) (e : Int) : Nat :=
  128 + (leading m e).natAbs

/-- Compares `m * 2 ^ e` with one. -/
def compareOne (m : Nat) (e : Int) : Ordering :=
  compare (m * twoTo e.toNat) (twoTo (-e).toNat)

/-- A result that must be finite. -/
def inRange : Binary64 → Except Fault Binary64
  | .infinite _ => .error .range
  | x => .ok x

/-- The exponentials of a number and of its opposite. -/
def exponentials (p : Nat) (x : Enclosure) : Enclosure × Enclosure :=
  let (y, k) := Enclosure.exp p x
  let (z, l) := Enclosure.exp p x.neg
  (y.shift k, z.shift l)

/-- The enclosure at scale `p` of a function at the positive number `m * 2 ^ e`, where the
function is defined and not at the end of its domain. -/
def Elementary.approximate (f : Elementary) (m : Nat) (e : Int) (p : Nat) : Enclosure × Int :=
  let x := Enclosure.ofDyadic p m e
  let one := Enclosure.ofInt p 1
  match f with
  | .sin => ((Enclosure.sinCos p x).1, 0)
  | .cos => ((Enclosure.sinCos p x).2, 0)
  | .tan =>
    let (s, c) := Enclosure.sinCos p x
    (s.div p c, 0)
  | .asin =>
    let cosine := Enclosure.sqrt p ((one.sub x).mul p (one.add x))
    (Enclosure.atan p (x.div p (one.add cosine)), 1)
  | .acos => (Enclosure.atan p (Enclosure.sqrt p ((one.sub x).div p (one.add x))), 1)
  | .atan => (Enclosure.atan p x, 0)
  | .sinh =>
    let (y, z) := exponentials p x
    (y.sub z, -1)
  | .cosh =>
    let (y, z) := exponentials p x
    (y.add z, -1)
  | .tanh =>
    let (y, z) := exponentials p x
    ((y.sub z).div p (y.add z), 0)
  | .asinh => (Enclosure.log p (x.add (Enclosure.sqrt p ((x.mul p x).add one))) 0, 0)
  | .acosh => (Enclosure.log p (x.add (Enclosure.sqrt p ((x.mul p x).sub one))) 0, 0)
  | .atanh => (Enclosure.log p ((one.add x).div p (one.sub x)) 0, -1)
  | .exp => Enclosure.exp p x
  | .log => (Enclosure.log p (Enclosure.ofDyadic p m (-52)) (e + 52), 0)

/-- The nearest double of a function at the positive number `m * 2 ^ e`. -/
def Elementary.nearest (f : Elementary) (m : Nat) (e : Int) : Binary64 :=
  settle (f.approximate m e) tries (firstScale m e)

def nearestPi (quarters : Int) : Binary64 :=
  settle (fun p => ((Enclosure.pi p).scaleInt quarters, -2)) tries 128

def signed (negative : Bool) (x : Binary64) : Binary64 :=
  if negative then x.flip else x

/-- The value of an odd function at a number of either sign. -/
def Elementary.atSigned (f : Elementary) (negative : Bool) (m : Nat) (e : Int) : Binary64 :=
  signed negative (f.nearest m e)

/-- The value of a function at a finite double other than zero. -/
def Elementary.atFinite (f : Elementary) (negative : Bool) (m : Nat) (e : Int) :
    Except Fault Binary64 :=
  let beyond := 10 ≤ leading m e
  match f with
  | .sin | .tan | .atan | .asinh => .ok (f.atSigned negative m e)
  | .cos => .ok (f.nearest m e)
  | .asin =>
    match compareOne m e with
    | .gt => .error .domain
    | .eq => .ok (signed negative (nearestPi 2))
    | .lt => .ok (f.atSigned negative m e)
  | .acos =>
    match compareOne m e with
    | .gt => .error .domain
    | .eq => .ok (if negative then nearestPi 4 else zero false)
    | .lt =>
      if negative then
        .ok (settle (fun p =>
          let (y, k) := f.approximate m e p
          ((Enclosure.pi p).sub (y.shift k), 0)) tries (firstScale m e))
      else .ok (f.nearest m e)
  | .atanh => if compareOne m e = .lt then .ok (f.atSigned negative m e) else .error .domain
  | .acosh =>
    if negative then .error .domain
    else
      match compareOne m e with
      | .lt => .error .domain
      | .eq => .ok (zero false)
      | .gt => .ok (f.nearest m e)
  | .sinh => if beyond then .error .range else inRange (f.atSigned negative m e)
  | .cosh => if beyond then .error .range else inRange (f.nearest m e)
  | .tanh =>
    .ok (if 6 ≤ leading m e then signed negative one else f.atSigned negative m e)
  | .exp =>
    if negative then
      if beyond then .ok (zero false)
      else
        let enclose (p : Nat) := Enclosure.exp p (Enclosure.ofDyadic p m e).neg
        .ok (settle enclose tries (firstScale m e))
    else if beyond then .error .range
    else inRange (f.nearest m e)
  | .log =>
    if negative then .error .domain
    else if compareOne m e = .eq then .ok (zero false)
    else .ok (f.nearest m e)

/-- The value of a function at a double. -/
def Elementary.apply (f : Elementary) : Binary64 → Except Fault Binary64
  | .nan => .ok .nan
  | .infinite negative =>
    match f with
    | .atan => .ok (signed negative (nearestPi 2))
    | .tanh => .ok (signed negative one)
    | .sinh | .asinh => .ok (.infinite negative)
    | .cosh => .ok (.infinite false)
    | .exp => .ok (if negative then zero false else .infinite false)
    | .acosh | .log => if negative then .error .domain else .ok (.infinite false)
    | .sin | .cos | .tan | .asin | .acos | .atanh => .error .domain
  | .finite negative m e =>
    if m = 0 then
      match f with
      | .cos | .cosh | .exp => .ok one
      | .acos => .ok (nearestPi 2)
      | .acosh | .log => .error .domain
      | _ => .ok (zero negative)
    else f.atFinite negative m e

/-! ### Powers -/

/-- The number `m * 2 ^ e` with an odd significand. -/
def oddPart (m : Nat) (e : Int) : Nat × Int :=
  go m.log2 m e
where
  go : Nat → Nat → Int → Nat × Int
    | 0, m, e => (m, e)
    | n + 1, m, e => if m % 2 = 0 then go n (m / 2) (e + 1) else (m, e)

/-- The `2 ^ f`-th root of a natural number, if it is one. -/
def exactRoot? (n : Nat) : (f : Nat) → Option Nat
  | 0 => some n
  | f + 1 =>
    if n = 1 then some 1
    else
      let r := Enclosure.natSqrt n
      if r * r = n then exactRoot? r f else none

/-- The power `(m * 2 ^ e) ^ (n * 2 ^ f)` when it is a short binary fraction: these are the only
powers that can lie half way between two doubles. -/
def exactPower? (m : Nat) (e : Int) (inverse : Bool) (n : Nat) (f : Int) : Option Binary64 :=
  let (o, a) := oddPart m e
  let (n, f) := oddPart n f
  let roots := (-f).toNat
  let n := n * twoTo f.toNat
  if (inverse && o != 1) || (o != 1 && 64 < n) || 64 < roots then none
  else
    match exactRoot? o roots with
    | none => none
    | some r =>
      if a % twoTo roots = 0 then
        let b := a / twoTo roots * n * (if inverse then -1 else 1)
        if b.natAbs ≤ 4096 then
          some (ofRatio false ((if o = 1 then 1 else Nat.pow r n) * twoTo b.toNat)
            (twoTo (-b).toNat))
        else none
      else none

/-- The number `n * 2 ^ f` as an integer: whether it is one, and whether it is odd. -/
def integrality (n : Nat) (f : Int) : Bool × Bool :=
  if 0 < f then (true, false)
  else
    let unit := twoTo (-f).toNat
    (n % unit = 0, n % unit = 0 && n / unit % 2 = 1)

/-- The power of a positive number other than zero. -/
def powerPositive (m : Nat) (e : Int) (inverse : Bool) (n : Nat) (f : Int) : Binary64 :=
  match compareOne m e with
  | .eq => one
  | o =>
    let grows := (o == .gt) != inverse
    let limit : Binary64 := if grows then .infinite false else zero false
    if 64 ≤ leading n f then limit
    else
      match exactPower? m e inverse n f with
      | some x => x
      | none =>
        let exponent (p : Nat) : Enclosure :=
          let w := Enclosure.mul p (Enclosure.log p (Enclosure.ofDyadic p m (-52)) (e + 52))
            (Enclosure.ofDyadic p n f)
          if inverse then w.neg else w
        if 1024 * twoTo 256 ≤ (exponent 256).mid.natAbs then limit
        else settle (fun p => Enclosure.exp p (exponent p)) tries 256

/-- The power of two doubles, with the values that the standard for doubles gives to powers of
zeros, infinities and what is no number. -/
def power : Binary64 → Binary64 → Except Fault Binary64
  | .nan, .finite _ n _ => .ok (if n = 0 then one else .nan)
  | .nan, _ => .ok .nan
  | x, .nan => .ok (if x = one then one else .nan)
  | .infinite _, .infinite inverse => .ok (if inverse then zero false else .infinite false)
  | .infinite negative, .finite inverse n f =>
    let odd := (integrality n f).2
    .ok (if n = 0 then one
      else if inverse then zero (negative && odd)
      else .infinite (negative && odd))
  | .finite _ m e, .infinite inverse =>
    .ok (if m = 0 then if inverse then .infinite false else zero false
      else match compareOne m e with
        | .eq => one
        | .gt => if inverse then zero false else .infinite false
        | .lt => if inverse then .infinite false else zero false)
  | .finite negative m e, .finite inverse n f =>
    let (integral, odd) := integrality n f
    if n = 0 then .ok one
    else if m = 0 then
      if inverse then .error .domain else .ok (zero (negative && odd))
    else if negative && !integral then .error .domain
    else inRange (signed (negative && odd) (powerPositive m e inverse n f))

/-! ### What computes them -/

/-- The functions of doubles as a machine computes them. What it makes of an argument is left open:
an infinity or what is no number may come out of any of them. -/
class Library where
  elementary : Elementary → Binary64 → Except Fault Binary64
  power : Binary64 → Binary64 → Except Fault Binary64

/-- Every value is the double nearest to the real one. -/
instance : Library where
  elementary := Elementary.apply
  power := power

end Reckon.Binary64
