import Reckon.Decimal.Text
import Reckon.Operator

/-!
# Numbers and names in formulas

`number?` reads a plain number with an optional sign, `isLiteral` also lets a power of ten follow,
`isName` tells the names of variables: a letter, then letters and digits, with no operator
anywhere inside. All three let one line end follow.
-/

namespace Reckon.Formula

open Reckon.Text

/-- The text without one line end behind it. -/
def withoutLineEnd (s : List Char) : List Char :=
  if s.getLast? = some '\n' then s.dropLast else s

/-- Digits with at most one point among them. -/
def isMagnitude (s : List Char) : Bool :=
  let whole := s.takeWhile isDigit
  match s.dropWhile isDigit with
  | [] => !whole.isEmpty
  | '.' :: fraction => (!whole.isEmpty || !fraction.isEmpty) && fraction.all isDigit
  | _ => false

def isNumber (s : List Char) : Bool :=
  isMagnitude (Decimal.splitSign (withoutLineEnd s)).2

/-- A number that may have a power of ten. -/
def isLiteral (s : List Char) : Bool :=
  (Decimal.readMagnitude? (Decimal.splitSign (withoutLineEnd s)).2).isSome

/-- The number that a text is. -/
def number? (s : List Char) : Option Decimal :=
  if isNumber s then Decimal.ofText? s else none

/-- Whether an operator begins anywhere in the text. -/
def hasOperator : List Char → Bool
  | [] => false
  | c :: s => (Operator.longestMatch (c :: s)).isSome || hasOperator s

def isIdentifier : List Char → Bool
  | [] => false
  | c :: s => isAsciiLetter c && s.all fun c => isAsciiLetter c || isAsciiDigit c

def isName (s : List Char) : Bool :=
  isIdentifier (withoutLineEnd s) && !hasOperator s

end Reckon.Formula
