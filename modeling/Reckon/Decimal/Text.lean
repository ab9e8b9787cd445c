import Reckon.Decimal.Basic
import Reckon.Text.Blank
import Reckon.Text.Digit

/-!
# Decimals as text

`text` writes a decimal so that its form, coefficient and exponent, can be read off: with a point
while the exponent is not positive and at most five zeros follow the point, with a power of ten
otherwise. `positional` writes it without a power of ten. `ofText?` reads every form of a number
exactly.
-/

namespace Reckon.Decimal

open Reckon.Text

def signText (negative : Bool) : List Char :=
  if negative then ['-'] else []

/-- The digits `ds` with a point in front of the last `k`. -/
def withPoint (ds : List Char) (k : Nat) : List Char :=
  if k = 0 then ds
  else if k < ds.length then ds.take (ds.length - k) ++ '.' :: ds.drop (ds.length - k)
  else '0' :: '.' :: (List.replicate (k - ds.length) '0' ++ ds)

/-- A power of ten with its sign. -/
def powerText (e : Int) : List Char :=
  (if e < 0 then '-' else '+') :: digits e.natAbs

def magnitudeText (c : Nat) (e : Int) : List Char :=
  let ds := digits c
  let leading := e + ds.length - 1
  if e ≤ 0 ∧ -6 ≤ leading then withPoint ds (-e).toNat
  else withPoint ds (ds.length - 1) ++ 'E' :: powerText leading

/-- The form of a decimal. -/
def textChars : Decimal → List Char
  | .finite negative c e => signText negative ++ magnitudeText c e
  | .infinite negative => signText negative ++ ['I', 'n', 'f', 'i', 'n', 'i', 't', 'y']
  | .nan => ['N', 'a', 'N']

def text (a : Decimal) : String :=
  String.ofList a.textChars

/-- The number without a power of ten. -/
def positional : Decimal → List Char
  | .finite negative c e =>
    signText negative ++
      if 0 ≤ e then digits c ++ List.replicate e.toNat '0' else withPoint (digits c) (-e).toNat
  | a => a.textChars

/-! ### Reading -/

/-- The largest exponent of a number that is read. -/
def maxReadExponent : Int := 999999999999999999

/-- The smallest exponent of a number that is read. -/
def minReadExponent : Int := -1999999999999999997

/-- A number within the limits of reading. -/
def readable (c : Nat) (e : Int) : Bool :=
  minReadExponent ≤ e && (if c = 0 then e else e + digitCount c - 1) ≤ maxReadExponent

def digitsValue (s : List Char) : Nat :=
  natValue (s.filterMap digitValue?)

/-- A sign, if there is one, and the rest. -/
def splitSign : List Char → Bool × List Char
  | '-' :: s => (true, s)
  | '+' :: s => (false, s)
  | s => (false, s)

/-- A power of ten that takes up the whole text; the empty text stands for the zeroth. -/
def readPower? : List Char → Option Int
  | [] => some 0
  | c :: s =>
    if c = 'e' ∨ c = 'E' then
      let (negative, ds) := splitSign s
      if ds ≠ [] ∧ ds.all isDigit then
        some (if negative then -(digitsValue ds : Int) else digitsValue ds)
      else none
    else none

/-- Digits with an optional point among them, then an optional power of ten. -/
def readMagnitude? (s : List Char) : Option (Nat × Int) :=
  let whole := s.takeWhile isDigit
  let rest := s.dropWhile isDigit
  let (fraction, rest) :=
    match rest with
    | '.' :: t => (t.takeWhile isDigit, t.dropWhile isDigit)
    | _ => ([], rest)
  if whole.isEmpty && fraction.isEmpty then none
  else (readPower? rest).map fun e => (digitsValue (whole ++ fraction), e - fraction.length)

/-- The number that a text denotes, in the form in which it is written. Blanks around it and
underscores do not count. -/
def ofText? (s : List Char) : Option Decimal :=
  let (negative, s) := splitSign ((trim s).filter (· ≠ '_'))
  let lower := String.ofList (s.map Char.toLower)
  if lower = "inf" ∨ lower = "infinity" then some (.infinite negative)
  else if lower = "nan" then some .nan
  else do
    let (c, e) ← readMagnitude? s
    if readable c e then some (.finite negative c e) else none

end Reckon.Decimal
