import Reckon.Failure
import Reckon.Formula.Numeral
import Reckon.Text.Lowercase

/-!
# Prepared formulas

What a person types becomes a prepared text in four steps: blanks are deleted, letters made small,
E notation written as a product with a power of ten, and `*` put where neighbours are meant to be
multiplied. `validate` then refuses texts with foreign characters, with brackets that do not come
in equal numbers, or with a binary operator right behind another operator.
-/

namespace Reckon.Formula

open Reckon.Text

/-- The text without blanks, in small letters. -/
def normalize (s : List Char) : List Char :=
  lowercase (squeeze s)

def isExponentStart : List Char → Bool
  | '+' :: c :: _ | '-' :: c :: _ => isDigit c
  | c :: _ => isDigit c
  | [] => false

/-- Writes an `e` between digits as `*10^`. `afterDigit` says whether a digit stands before the
text. -/
def expandScientificFrom (afterDigit : Bool) : List Char → List Char
  | [] => []
  | c :: s =>
    let rest := expandScientificFrom (isDigit c) s
    if c = 'e' && afterDigit && isExponentStart s then '*' :: '1' :: '0' :: '^' :: rest
    else c :: rest

def expandScientific (s : List Char) : List Char :=
  expandScientificFrom false s

/-- The operator that ends the text, if the text is the beginning of no longer one. -/
def operatorAtEnd : List Char → Option Operator
  | [] => none
  | c :: s =>
    match Operator.longestMatch (c :: s) with
    | some op => if op.symbol.length = s.length + 1 then some op else operatorAtEnd s
    | none => operatorAtEnd s

/-- How many characters the longest symbol has. -/
def maxSymbolLength : Nat := 8

/-- The operator that ends a text given last character first. -/
def backTrack (before : List Char) : Option Operator :=
  operatorAtEnd (before.take maxSymbolLength).reverse

def isBinaryOperator (op : Option Operator) : Bool :=
  op.any Operator.isBinary

/-- Whether a product is meant between the text `before`, given last character first, and the
character `c` where the operator `op` may begin. -/
def meansProduct (before : List Char) (c : Char) (op : Option Operator) : Bool :=
  match before with
  | [] => false
  | last :: _ =>
    (isAsciiLetter last && op.isSome && !isBinaryOperator op) ||
    (isAsciiDigit last && isAsciiLetter c && !isBinaryOperator op) ||
    (isAsciiDigit last && c = '(') ||
    (last = ')' && isAsciiLetter c && !isBinaryOperator op) ||
    (last = ')' && c = '(') ||
    (isAsciiLetter last && c = '(' && (backTrack before).isNone)

def insertProductsFrom (before : List Char) : List Char → List Char
  | [] => []
  | c :: s =>
    let op := Operator.longestMatch (c :: s)
    let star := if meansProduct before c op then ['*'] else []
    match _ : op with
    | some op =>
      star ++ op.symbol ++
        insertProductsFrom (op.symbol.reverse ++ before) ((c :: s).drop op.symbol.length)
    | none => star ++ c :: insertProductsFrom (c :: before) s
termination_by s => s.length
decreasing_by
  · exact Operator.length_drop_symbol_lt ‹_›
  · simp

/-- Puts `*` where neighbours are meant to be multiplied. -/
def insertProducts (s : List Char) : List Char :=
  insertProductsFrom [] s

/-- Prepares a formula. -/
def prepare (s : List Char) : Except Failure (List Char) :=
  if maxLength < s.length then .error (.malformed .tooLong)
  else
    let s := normalize s
    if s.isEmpty then .error (.malformed .emptyFormula)
    else .ok (insertProducts (expandScientific s))

theorem prepare_eq_ok_iff {s p : List Char} :
    prepare s = .ok p ↔
      s.length ≤ maxLength ∧ normalize s ≠ [] ∧
        insertProducts (expandScientific (normalize s)) = p := by
  rw [prepare]
  split
  · rename_i hlong
    exact ⟨(fun h => nomatch h), fun h => absurd h.1 (Nat.not_le.mpr hlong)⟩
  · rename_i hshort
    simp only [List.isEmpty_iff]
    split
    · rename_i hempty
      exact ⟨(fun h => nomatch h), fun h => absurd hempty h.2.1⟩
    · rename_i hne
      simp only [Except.ok.injEq, Nat.not_lt.mp hshort, ne_eq, hne, not_false_eq_true, true_and]

/-- Whether opening and closing brackets come in equal numbers. -/
def isBalanced (s : List Char) : Bool :=
  s.count '(' = s.count ')'

/-- Characters besides letters and digits that may stand outside operators. -/
def isAllowedSymbol (c : Char) : Bool :=
  ['(', ')', '.', '>', '<', '&', '=', '|'].contains c

/-- Looks at every place of the text for an operator with a forbidden neighbour, or a foreign
character. -/
def validateCharacters : List Char → Except Failure Unit
  | [] => .ok ()
  | c :: s =>
    match Operator.longestMatch (c :: s) with
    | some op =>
      match Operator.longestMatch ((c :: s).drop op.symbol.length) with
      | some (.binary following) =>
        if following.isSign then validateCharacters s
        else .error (.malformed (.adjacentOperators (String.ofList (c :: s))))
      | _ => validateCharacters s
    | none =>
      if isAsciiLetter c || isAsciiDigit c || isAllowedSymbol c then validateCharacters s
      else .error (.malformed (.illegalCharacter (String.ofList (c :: s))))

def validate (s : List Char) : Except Failure Unit :=
  if isBalanced s then validateCharacters s else .error (.malformed .unbalanced)

end Reckon.Formula
