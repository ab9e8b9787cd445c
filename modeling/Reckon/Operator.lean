/-!
# Operators

An operator takes one operand or two. It is known by its symbol, which may be a name, and ranked
by how tightly it binds: the smaller the rank, the tighter. Where several symbols fit the
beginning of a text, the longest is meant (`longestMatch`), so that `<=` is one operator and
`acosh` is not `acos` with an `h`.
-/

namespace Reckon

/-- Operators of one operand, written in front of it. -/
inductive Unary where
  | not
  | sin | cos | tan | cotan | sec | csc | exsec | vers | covers | hav | sinc
  | asin | acos | atan | acotan | asec | acsc | aexsec | avers | acovers | ahav
  | sinh | cosh | tanh | cotanh | sech | csch
  | asinh | acosh | atanh | acoth | asech | acsch
  | exp | ln | sqrt
  | abs | fpart | round | ceil | floor | fac | sfac
  | degToRad | degToGrad | radToDeg | radToGrad | gradToDeg | gradToRad
  deriving DecidableEq

/-- Operators of two operands, written between them. -/
inductive Binary where
  | power | times | div | modulo | log | plus | minus
  | greater | less | atLeast | atMost | equal | unequal | or | and
  deriving DecidableEq

inductive Operator where
  | unary (op : Unary)
  | binary (op : Binary)
  deriving DecidableEq

namespace Unary

def symbol : Unary → List Char
  | .not => ['!']
  | .sin => ['s', 'i', 'n']
  | .cos => ['c', 'o', 's']
  | .tan => ['t', 'a', 'n']
  | .cotan => ['c', 'o', 't', 'a', 'n']
  | .sec => ['s', 'e', 'c']
  | .csc => ['c', 's', 'c']
  | .exsec => ['e', 'x', 's', 'e', 'c']
  | .vers => ['v', 'e', 'r', 's']
  | .covers => ['c', 'o', 'v', 'e', 'r', 's']
  | .hav => ['h', 'a', 'v']
  | .sinc => ['s', 'i', 'n', 'c']
  | .asin => ['a', 's', 'i', 'n']
  | .acos => ['a', 'c', 'o', 's']
  | .atan => ['a', 't', 'a', 'n']
  | .acotan => ['a', 'c', 'o', 't', 'a', 'n']
  | .asec => ['a', 's', 'e', 'c']
  | .acsc => ['a', 'c', 's', 'c']
  | .aexsec => ['a', 'e', 'x', 's', 'e', 'c']
  | .avers => ['a', 'v', 'e', 'r', 's']
  | .acovers => ['a', 'c', 'o', 'v', 'e', 'r', 's']
  | .ahav => ['a', 'h', 'a', 'v']
  | .sinh => ['s', 'i', 'n', 'h']
  | .cosh => ['c', 'o', 's', 'h']
  | .tanh => ['t', 'a', 'n', 'h']
  | .cotanh => ['c', 'o', 't', 'a', 'n', 'h']
  | .sech => ['s', 'e', 'c', 'h']
  | .csch => ['c', 's', 'c', 'h']
  | .asinh => ['a', 's', 'i', 'n', 'h']
  | .acosh => ['a', 'c', 'o', 's', 'h']
  | .atanh => ['a', 't', 'a', 'n', 'h']
  | .acoth => ['a', 'c', 'o', 't', 'h']
  | .asech => ['a', 's', 'e', 'c', 'h']
  | .acsch => ['a', 'c', 's', 'c', 'h']
  | .exp => ['e', 'x', 'p']
  | .ln => ['l', 'n']
  | .sqrt => ['s', 'q', 'r', 't']
  | .abs => ['a', 'b', 's']
  | .fpart => ['f', 'p', 'a', 'r', 't']
  | .round => ['r', 'o', 'u', 'n', 'd']
  | .ceil => ['c', 'e', 'i', 'l']
  | .floor => ['f', 'l', 'o', 'o', 'r']
  | .fac => ['f', 'a', 'c']
  | .sfac => ['s', 'f', 'a', 'c']
  | .degToRad => ['d', 'e', 'g', '2', 'r', 'a', 'd']
  | .degToGrad => ['d', 'e', 'g', '2', 'g', 'r', 'a', 'd']
  | .radToDeg => ['r', 'a', 'd', '2', 'd', 'e', 'g']
  | .radToGrad => ['r', 'a', 'd', '2', 'g', 'r', 'a', 'd']
  | .gradToDeg => ['g', 'r', 'a', 'd', '2', 'd', 'e', 'g']
  | .gradToRad => ['g', 'r', 'a', 'd', '2', 'r', 'a', 'd']

/-- Functions of an angle. -/
def isForwardTrigonometric : Unary → Bool
  | .sin | .cos | .tan | .cotan | .sec | .csc | .exsec | .vers | .covers | .hav | .sinc => true
  | _ => false

/-- Functions whose value is an angle. -/
def isInverseTrigonometric : Unary → Bool
  | .asin | .acos | .atan | .acotan | .asec | .acsc | .aexsec | .avers | .acovers | .ahav => true
  | _ => false

def isTrigonometric (op : Unary) : Bool :=
  op.isForwardTrigonometric || op.isInverseTrigonometric

def rank : Unary → Nat
  | .not => 1
  | _ => 2

def name (op : Unary) : String :=
  String.ofList op.symbol

end Unary

namespace Binary

def symbol : Binary → List Char
  | .power => ['^']
  | .times => ['*']
  | .div => ['/']
  | .modulo => ['%']
  | .log => ['l', 'o', 'g']
  | .plus => ['+']
  | .minus => ['-']
  | .greater => ['>']
  | .less => ['<']
  | .atLeast => ['>', '=']
  | .atMost => ['<', '=']
  | .equal => ['=', '=']
  | .unequal => ['!', '=']
  | .or => ['|', '|']
  | .and => ['&', '&']

def rank : Binary → Nat
  | .power => 3
  | .times | .div | .modulo => 4
  | .log => 5
  | .plus | .minus => 6
  | .greater | .less | .atLeast | .atMost => 7
  | .equal | .unequal => 8
  | .or => 9
  | .and => 10

/-- The operators that may also stand in front of an operand, as its sign. -/
def isSign : Binary → Bool
  | .plus | .minus => true
  | _ => false

def name (op : Binary) : String :=
  String.ofList op.symbol

end Binary

namespace Operator

def symbol : Operator → List Char
  | .unary op => op.symbol
  | .binary op => op.symbol

def name (op : Operator) : String :=
  String.ofList op.symbol

def arity : Operator → Nat
  | .unary _ => 1
  | .binary _ => 2

def rank : Operator → Nat
  | .unary op => op.rank
  | .binary op => op.rank

def isTrigonometric : Operator → Bool
  | .unary op => op.isTrigonometric
  | .binary _ => false

def isBinary : Operator → Bool
  | .unary _ => false
  | .binary _ => true

/-- All operators, those with the longest symbols first. -/
def byLength : List Operator := [
  .unary .degToGrad, .unary .radToGrad, .unary .gradToDeg, .unary .gradToRad, .unary .acovers,
  .unary .degToRad, .unary .radToDeg, .unary .covers, .unary .acotan, .unary .aexsec,
  .unary .cotanh, .unary .cotan, .unary .exsec, .unary .avers, .unary .asinh, .unary .acosh,
  .unary .atanh, .unary .acoth, .unary .asech, .unary .acsch, .unary .fpart, .unary .round,
  .unary .floor, .unary .vers, .unary .sinc, .unary .asin, .unary .acos, .unary .atan,
  .unary .asec, .unary .acsc, .unary .ahav, .unary .sinh, .unary .cosh, .unary .tanh,
  .unary .sech, .unary .csch, .unary .sqrt, .unary .ceil, .unary .sfac, .unary .sin, .unary .cos,
  .unary .tan, .unary .sec, .unary .csc, .unary .hav, .unary .exp, .unary .abs, .unary .fac,
  .binary .log, .unary .ln, .binary .atLeast, .binary .atMost, .binary .equal, .binary .unequal,
  .binary .or, .binary .and, .unary .not, .binary .power, .binary .times, .binary .div,
  .binary .modulo, .binary .plus, .binary .minus, .binary .greater, .binary .less]

/-- The operator with the given symbol. -/
def ofSymbol? (s : List Char) : Option Operator :=
  byLength.find? fun op => op.symbol = s

/-- The operator with the longest symbol that `s` begins with. -/
def longestMatch (s : List Char) : Option Operator :=
  byLength.find? fun op => op.symbol.isPrefixOf s

theorem mem_byLength (op : Operator) : op ∈ byLength := by
  cases op with
  | unary op => cases op <;> decide
  | binary op => cases op <;> decide

theorem length_symbol_pos (op : Operator) : 0 < op.symbol.length := by
  cases op with
  | unary op => cases op <;> decide
  | binary op => cases op <;> decide

/-- The text after a leading operator is shorter. -/
theorem length_drop_symbol_lt {s : List Char} {op : Operator} (h : longestMatch s = some op) :
    (s.drop op.symbol.length).length < s.length := by
  have hp : op.symbol <+: s := by
    have := List.find?_some h
    exact List.isPrefixOf_iff_prefix.mp this
  have := op.length_symbol_pos
  have := hp.length_le
  simp only [List.length_drop]
  omega

end Operator

end Reckon
