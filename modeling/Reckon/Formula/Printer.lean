import Reckon.Tree.Basic

/-!
# Writing formulas

`Tree.formula` writes a tree with the brackets that reading it back needs, and a few more.
`collapseSigns` turns two signs in a row into one.
-/

namespace Reckon

namespace Tree

/-- Whether a tree is an operator looser than `op` between two operands. -/
def isLooser (op : Binary) : Tree → Bool
  | binary inner _ _ => op.rank < inner.rank
  | _ => false

/-- Whether the left operand of `op` is written in brackets: a negative number in front of a
power, and an operator that is looser, or any operator if `op` is no sign. -/
def bracketsLeft (op : Binary) : Tree → Except Signal Bool
  | number a => if op = .power then a.less .zero else .ok false
  | var _ | unary .. => .ok false
  | a@(binary ..) => .ok (!op.isSign || a.isLooser op)

/-- Whether the right operand `b` of `op` is written in brackets. -/
def bracketsRight (op : Binary) (a b : Tree) : Bool :=
  match b with
  | number _ | var _ => false
  | unary .. => op = .minus && a.isCompound
  | binary inner _ _ =>
    match op with
    | .plus => b.isLooser op
    | .minus => inner != .times && inner != .div
    | .times => a.isCompound || (inner != .power && inner != .times)
    | _ => true

def inBrackets (s : List Char) : List Char :=
  '(' :: s ++ [')']

/-- The tree as a formula. -/
def formula : Tree → Except Failure (List Char)
  | number a => a.displayChars
  | var x => .ok x.toList
  | unary op a => do return op.symbol ++ inBrackets (← a.formula)
  | binary op a b => do
    let left ← a.formula
    let left := if ← a.bracketsLeft op then inBrackets left else left
    let right ← b.formula
    let right := if bracketsRight op a b then inBrackets right else right
    return left ++ op.symbol ++ right

end Tree

namespace Formula

/-- Two equal signs become a plus, two different ones a minus. -/
def collapseSigns : List Char → List Char
  | '+' :: '+' :: s | '-' :: '-' :: s => '+' :: collapseSigns s
  | '+' :: '-' :: s | '-' :: '+' :: s => '-' :: collapseSigns s
  | c :: s => c :: collapseSigns s
  | [] => []

end Formula

end Reckon
