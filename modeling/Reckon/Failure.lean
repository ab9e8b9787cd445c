import Reckon.Decimal.Arithmetic
import Reckon.Decimal.Text
import Reckon.Text.Quoted

/-!
# Causes of failure

A formula can be malformed, or well formed and without a value, or nested too deeply. Each cause
has a message for people and a code for programs. The last four causes of `Failure` are faults of
a computation that no rule of the calculator foresees; they have no code.
-/

namespace Reckon

/-- Why a text is no formula, or not one that was asked for. -/
inductive Malformed where
  | emptyFormula
  | tooLong
  | unbalanced
  | adjacentOperators (near : String)
  | illegalCharacter (near : String)
  | operandAfterOperand (near : String)
  | loneOperand (text : String)
  | operandBeforeUnary (op : String)
  | noOperand
  | operandCount (op : String)
  | unaryAfterOperand (op : String) (operand : String)
  | unnamedVariable
  | notVariable (name : String)
  | notDifferentiable (op : String)
  | notBinding (text : String)
  | emptyNotation
  | unfinishedNotation
  | unclosedNotation
  | trailingNotation (text : String)
  | unexpectedToken (token : String)
  | unknownNotation (op : String)
  deriving DecidableEq

/-- Why a well-formed formula has no value. -/
inductive Undefined where
  | unbound (name : String)
  | cyclic (name : String)
  | divisionByZero (op : String)
  | outsideDomain (op : String) (value : Decimal) (expected : Option String)
  | invalidArgument (op : String) (value : Decimal) (expected : String)
  | unknownOperator (op : String)
  | tooLarge (op : String)
  | arithmetic (op : String) (cause : Signal)
  deriving DecidableEq

inductive Failure where
  | malformed (cause : Malformed)
  | undefined (cause : Undefined)
  | tooDeep
  | tooComplex
  | signal (cause : Signal)
  | infiniteInteger
  | integerTooLong
  | unknownUnit (name : String)
  deriving DecidableEq

/-- How many characters a formula may have. -/
def maxLength : Nat := 10000

/-- How many levels a formula may be nested. -/
def maxDepth : Nat := 300

/-- How many digits an integer may have to be written out. -/
def maxIntegerDigits : Nat := 4300

/-- The largest number with a factorial. -/
def maxFactorial : Nat := 1000

namespace Malformed

def message : Malformed → String
  | emptyFormula => "Expression is null or empty string"
  | tooLong => s!"Input too long (max {maxLength} characters)"
  | unbalanced | unclosedNotation => "Non matching brackets"
  | adjacentOperators near | illegalCharacter near => s!"Syntax error near -> {near}"
  | operandAfterOperand near => s!"Missing operator near -> {near}"
  | loneOperand text => s!"Missing operator in {text}"
  | operandBeforeUnary op => s!"Missing operator before {op}"
  | noOperand => "Wrong number of arguments to operator"
  | operandCount op => s!"Wrong number of arguments to operator {op}"
  | unaryAfterOperand op operand =>
    s!"Operator {op} takes a single argument and cannot follow {operand}"
  | unnamedVariable => "Not a valid variable: empty name"
  | notVariable name => s!"Not a valid variable {name}"
  | notDifferentiable op => s!"Operator {op} is not differentiable"
  | notBinding text => s!"Syntax error -> {text}"
  | emptyNotation => "Empty prefix expression"
  | unfinishedNotation => "Unexpected end of prefix expression"
  | trailingNotation text => s!"Trailing tokens in {text}"
  | unexpectedToken token => s!"Unexpected token {token}"
  | unknownNotation op => s!"Unknown operator {op}"

def code : Malformed → String
  | emptyFormula | emptyNotation => "EMPTY_EXPRESSION"
  | tooLong => "TOO_LONG"
  | unbalanced | unclosedNotation => "UNBALANCED_PARENTHESES"
  | adjacentOperators _ => "ILLEGAL_ADJACENT_OPERATORS"
  | illegalCharacter _ => "ILLEGAL_CHARACTER"
  | operandAfterOperand _ | loneOperand _ | operandBeforeUnary _ => "MISSING_OPERATOR"
  | noOperand | operandCount _ | unaryAfterOperand .. | unfinishedNotation => "ARITY_MISMATCH"
  | unnamedVariable | notVariable _ => "INVALID_VARIABLE"
  | notDifferentiable _ => "NOT_DIFFERENTIABLE"
  | notBinding _ | trailingNotation _ | unexpectedToken _ | unknownNotation _ => "SYNTAX_ERROR"

end Malformed

namespace Undefined

def message : Undefined → String
  | unbound name => s!"No value associated with {name}"
  | cyclic name => s!"Variable {name} is defined in terms of itself"
  | divisionByZero op => s!"Division by zero in operator {op}"
  | outsideDomain op value none =>
    let shown := value.text
    s!"{op} argument ({shown}) is outside its domain"
  | outsideDomain op value (some expected) =>
    let shown := value.text
    s!"{op} argument ({shown}) is outside its domain: must be {expected}"
  | invalidArgument op value expected =>
    let shown := value.text
    s!"{op} argument ({shown}) must be {expected}"
  | unknownOperator op => s!"Unknown operator {op}"
  | tooLarge op => s!"Result of {op} is too large to represent"
  | arithmetic op cause =>
    let cause := cause.message
    s!"Arithmetic error in {op}: {cause}"

def code : Undefined → String
  | unbound _ => "UNBOUND_VARIABLE"
  | cyclic _ => "CYCLIC_BINDING"
  | divisionByZero _ => "DIVISION_BY_ZERO"
  | outsideDomain .. => "DOMAIN_ERROR"
  | invalidArgument .. => "INVALID_ARGUMENT"
  | unknownOperator _ => "UNKNOWN_OPERATOR"
  | tooLarge _ => "NUMERIC_OVERFLOW"
  | arithmetic .. => "EVAL_ERROR"

end Undefined

namespace Failure

def message : Failure → String
  | malformed cause => cause.message
  | undefined cause => cause.message
  | tooDeep => s!"Expression too deeply nested (>{maxDepth} levels)"
  | tooComplex => "Expression too complex"
  | signal cause => cause.message
  | infiniteInteger => "An infinity has no integer part"
  | integerTooLong =>
    s!"Exceeds the limit ({maxIntegerDigits} digits) for integer string conversion; " ++
      "use sys.set_int_max_str_digits() to increase the limit"
  | unknownUnit name =>
    let shown := String.ofList (Text.quote name.toList)
    s!"Unknown angle unit {shown}, expected one of rad, deg, grad"

/-- The code of a failure that a rule of the calculator foresees. -/
def code : Failure → Option String
  | malformed cause => some cause.code
  | undefined cause => some cause.code
  | tooDeep | tooComplex => some "TOO_DEEP"
  | signal _ | infiniteInteger | integerTooLong | unknownUnit _ => none

end Failure

instance : MonadLift (Except Signal) (Except Failure) where
  monadLift r := r.mapError Failure.signal

/-- The number written for people: an integer digit by digit, any other number rounded to 28 digits,
without trailing zeros and without a power of ten. -/
def Decimal.displayChars (a : Decimal) : Except Failure (List Char) :=
  match a with
  | .finite negative c e =>
    if a.isIntegral then
      if maxIntegerDigits < (if c = 0 then 1 else digitCount c + e) then .error .integerTooLong
      else
        let n := magnitude c e
        .ok (signText (negative && n != 0) ++ digits n)
    else do return (← normalize .plain a).positional
  | _ => .ok a.positional

def Decimal.display (a : Decimal) : Except Failure String :=
  return String.ofList (← a.displayChars)

end Reckon
