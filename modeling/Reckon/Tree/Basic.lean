import Reckon.Failure
import Reckon.Numeric.Angle
import Reckon.Operator

/-!
# Formula trees

A tree is a number, a variable, or an operator applied to as many trees as it takes. Two trees are
the `same` when they differ at most in the form of their numbers, such as `2` and `2.0`. `names`
lists the variables from left to right, `unknowns` each of them once, without those that stand for
constants.
-/

namespace Reckon

inductive Tree where
  | number (value : Decimal)
  | var (name : String)
  | unary (op : Unary) (operand : Tree)
  | binary (op : Binary) (left right : Tree)
  deriving DecidableEq, Inhabited

/-- The values of the names that no binding can change. -/
def namedConstant? : String → Option Decimal
  | "pi" => some Numeric.pi
  | "euler" => some Numeric.euler
  | "true" => some .one
  | "false" => some .zero
  | _ => none

namespace Tree

def zero : Tree := number .zero
def one : Tree := number .one
def two : Tree := number .two
def minusOne : Tree := number .minusOne

/-- Equality up to the form of the numbers. -/
def same : Tree → Tree → Bool
  | number a, number b => a.same b
  | var x, var y => x = y
  | unary op a, unary op' a' => op = op' && same a a'
  | binary op a b, binary op' a' b' => op = op' && same a a' && same b b'
  | _, _ => false

/-- How many nodes a tree has. -/
def size : Tree → Nat
  | number _ | var _ => 1
  | unary _ a => a.size + 1
  | binary _ a b => a.size + b.size + 1

def isNumber : Tree → Bool
  | number _ => true
  | _ => false

def isVar : Tree → Bool
  | var _ => true
  | _ => false

/-- Whether a tree is an operator applied to operands. -/
def isCompound : Tree → Bool
  | number _ | var _ => false
  | unary .. | binary .. => true

def isBinary : Tree → Bool
  | binary .. => true
  | _ => false

def isZero : Tree → Bool
  | number a => a.same .zero
  | _ => false

def isOne : Tree → Bool
  | number a => a.same .one
  | _ => false

/-- The names of the variables, in the order in which they are written. -/
def names : Tree → List String
  | number _ => []
  | var x => [x]
  | unary _ a => a.names
  | binary _ a b => a.names ++ b.names

/-- The variables in the order in which they first occur. -/
def unknowns (t : Tree) : List String :=
  (t.names.filter fun x => (namedConstant? x).isNone).eraseDups

/-- The tree of an operator given by its symbol, with one operand or two. -/
def ofSymbol (symbol : String) (left : Tree) (right : Option Tree) : Except Failure Tree :=
  match Operator.ofSymbol? symbol.toList, right with
  | none, _ => .error (.undefined (.unknownOperator symbol))
  | some (.unary op), none => .ok (unary op left)
  | some (.binary op), some right => .ok (binary op left right)
  | some _, _ => .error (.malformed (.operandCount symbol))

end Tree

end Reckon
