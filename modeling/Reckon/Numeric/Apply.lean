import Reckon.Numeric.Circular
import Reckon.Numeric.Hyperbolic
import Reckon.Numeric.Integer
import Reckon.Numeric.Root
import Reckon.Operator

/-!
# The value of an operator

`Unary.numeric` and `Binary.numeric` are the functions behind the operators, angles in radians.
`Unary.apply` and `Binary.apply` evaluate an operator with angles in a unit of choice; there a
fault of decimal arithmetic is a failure of the operator.
-/

namespace Reckon

variable [Binary64.Library]

def truth (b : Bool) : Decimal :=
  if b then .one else .zero

namespace Unary

def numeric : Unary → Decimal → Except Failure Decimal
  | not, a => .ok (truth !(a.same .one))
  | sin, a => Numeric.sin a
  | cos, a => Numeric.cos a
  | tan, a => Numeric.tan a
  | cotan, a => Numeric.cotan a
  | sec, a => Numeric.sec a
  | csc, a => Numeric.csc a
  | exsec, a => Numeric.exsec a
  | vers, a => Numeric.vers a
  | covers, a => Numeric.covers a
  | hav, a => Numeric.hav a
  | sinc, a => Numeric.sinc a
  | asin, a => Numeric.asin a
  | acos, a => Numeric.acos a
  | atan, a => Numeric.atan a
  | acotan, a => Numeric.acotan a
  | asec, a => Numeric.asec a
  | acsc, a => Numeric.acsc a
  | aexsec, a => Numeric.aexsec a
  | avers, a => Numeric.avers a
  | acovers, a => Numeric.acovers a
  | ahav, a => Numeric.ahav a
  | sinh, a => Numeric.sinh a
  | cosh, a => Numeric.cosh a
  | tanh, a => Numeric.tanh a
  | cotanh, a => Numeric.cotanh a
  | sech, a => Numeric.sech a
  | csch, a => Numeric.csch a
  | asinh, a => Numeric.asinh a
  | acosh, a => Numeric.acosh a
  | atanh, a => Numeric.atanh a
  | acoth, a => Numeric.acoth a
  | asech, a => Numeric.asech a
  | acsch, a => Numeric.acsch a
  | exp, a => Numeric.exp a
  | ln, a => Numeric.ln a
  | sqrt, a => Numeric.sqrt a
  | abs, a => (Decimal.abs .plain a).mapError .signal
  | fpart, a => Numeric.fpart a
  | round, a => Numeric.round a
  | ceil, a => Numeric.ceil a
  | floor, a => Numeric.floor a
  | fac, a => Numeric.fac a
  | sfac, a => Numeric.sfac a
  | degToRad, a => Numeric.degToRad a
  | degToGrad, a => Numeric.degToGrad a
  | radToDeg, a => Numeric.radToDeg a
  | radToGrad, a => Numeric.radToGrad a
  | gradToDeg, a => Numeric.gradToDeg a
  | gradToRad, a => Numeric.gradToRad a

end Unary

namespace Binary

def numeric : Binary → Decimal → Decimal → Except Failure Decimal
  | power, a, b => Numeric.power a b
  | times, a, b => (Decimal.mul .working a b).mapError .signal
  | div, a, b => Numeric.divide "/" a b
  | modulo, a, b => Numeric.remainder a b
  | log, a, b => Numeric.log a b
  | plus, a, b => (Decimal.add .working a b).mapError .signal
  | minus, a, b => (Decimal.sub .working a b).mapError .signal
  | greater, a, b => do return truth (← b.less a)
  | less, a, b => do return truth (← a.less b)
  | atLeast, a, b => do return truth (← b.atMost a)
  | atMost, a, b => do return truth (← a.atMost b)
  | equal, a, b => .ok (truth (a.same b))
  | unequal, a, b => .ok (truth !(a.same b))
  | and, a, b => .ok (truth (a.same .one && b.same .one))
  | or, a, b => .ok (truth (a.same .one || b.same .one))

end Binary

/-- A fault of decimal arithmetic as a failure of the operator that met it. -/
def Failure.within (op : String) : Failure → Failure
  | .signal .overflow => .undefined (.tooLarge op)
  | .signal cause => .undefined (.arithmetic op cause)
  | f => f

/-- The value of an operator, angles in the given unit. -/
def Unary.apply (unit : AngleUnit) (op : Unary) (a : Decimal) : Except Failure Decimal :=
  let value : Except Failure Decimal := do
    let a ← if op.isForwardTrigonometric then Numeric.toRadians unit a else pure a
    let r ← op.numeric a
    if op.isInverseTrigonometric then Numeric.fromRadians unit r else pure r
  value.mapError (·.within op.name)

def Binary.apply (op : Binary) (a b : Decimal) : Except Failure Decimal :=
  (op.numeric a b).mapError (·.within op.name)

end Reckon
