import Reckon.Formula.Numeral
import Reckon.Text.Blank
import Reckon.Tree.Basic

/-!
# Bracketed notation

A tree written with every operator in front of its operands and brackets around them: `( + 2 x )`.
The parts are separated by blanks. Reading keeps the operators whose brackets are still open, with
the operands that they have so far.
-/

namespace Reckon

namespace Tree

/-- The tree in bracketed notation. -/
def bracketed : Tree → Except Failure (List Char)
  | number a => a.displayChars
  | var x => .ok x.toList
  | unary op a => do
    return '(' :: ' ' :: op.symbol ++ ' ' :: (← a.bracketed) ++ [' ', ')']
  | binary op a b => do
    return '(' :: ' ' :: op.symbol ++ ' ' :: (← a.bracketed) ++ ' ' :: (← b.bracketed) ++ [' ', ')']

end Tree

/-- An operator whose brackets are open, with its operands in reverse. -/
structure OpenNode where
  symbol : List Char
  operands : List Tree

namespace OpenNode

/-- The tree of an operator whose brackets are closed. -/
def close (node : OpenNode) : Except Failure Tree :=
  let symbol := String.ofList node.symbol
  let unknown : Failure → Failure
    | .undefined (.unknownOperator op) => .malformed (.unknownNotation op)
    | f => f
  match node.operands with
  | [a] => (Tree.ofSymbol symbol a none).mapError unknown
  | [b, a] => (Tree.ofSymbol symbol a (some b)).mapError unknown
  | _ => .error (.malformed (.operandCount symbol))

end OpenNode

namespace Tree

/-- The tree of a part without brackets. -/
def ofAtom (token : List Char) : Except Failure Tree :=
  match Formula.number? token with
  | some a => .ok (number a)
  | none =>
    if Formula.isName token then .ok (var (String.ofList token))
    else .error (.malformed (.unexpectedToken (String.ofList token)))

/-- Reads parts until the tree is complete; yields it and the parts behind it. -/
def readTokens (stack : List OpenNode) : List (List Char) → Except Failure (Tree × List (List Char))
  | [] => .error (.malformed (if stack.isEmpty then .unfinishedNotation else .unclosedNotation))
  | token :: rest =>
    match token == [')'], stack with
    | true, node :: stack => do
      let tree ← node.close
      match stack with
      | [] => return (tree, rest)
      | outer :: stack => readTokens (⟨outer.symbol, tree :: outer.operands⟩ :: stack) rest
    | _, stack =>
      if maxDepth < stack.length then .error .tooDeep
      else if token = ['('] then
        match rest with
        | [] => .error (.malformed .unfinishedNotation)
        | symbol :: rest => readTokens (⟨symbol, []⟩ :: stack) rest
      else do
        let tree ← ofAtom token
        match stack with
        | [] => return (tree, rest)
        | outer :: stack => readTokens (⟨outer.symbol, tree :: outer.operands⟩ :: stack) rest

/-- The tree that a text in bracketed notation denotes. -/
def ofBracketed (s : List Char) : Except Failure Tree :=
  match Text.words s with
  | [] => .error (.malformed .emptyNotation)
  | tokens => do
    let (tree, rest) ← readTokens [] tokens
    if rest.isEmpty then return tree
    else throw (.malformed (.trailingNotation (String.ofList s)))

end Tree

end Reckon
