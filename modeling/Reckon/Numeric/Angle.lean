import Reckon.Numeric.Basic

/-!
# Angles

Radians, degrees and gradians. A conversion is one product at working precision and one quotient.
-/

namespace Reckon

inductive AngleUnit where
  | rad | deg | grad
  deriving DecidableEq

namespace AngleUnit

def name : AngleUnit → String
  | rad => "rad"
  | deg => "deg"
  | grad => "grad"

/-- The unit with the given name in small letters. -/
def ofName? : String → Option AngleUnit
  | "rad" => some rad
  | "deg" => some deg
  | "grad" => some grad
  | _ => none

end AngleUnit

namespace Numeric

/-- Half the circumference of the unit circle, to sixty digits. -/
def pi : Decimal :=
  .finite false 314159265358979323846264338327950288419716939937510582097494 (-59)

/-- The base of the natural logarithm, to sixty digits. -/
def euler : Decimal :=
  .finite false 271828182845904523536028747135266249775724709369995957496697 (-59)

def halfTurnDegrees : Decimal := .ofNat 180
def halfTurnGradians : Decimal := .ofNat 200

/-- The value `a * b / c`. -/
def rescale (b c a : Decimal) : Except Failure Decimal := do
  (Decimal.div .quotient (← Decimal.mul .working a b) c).mapError .signal

def degToRad : Decimal → Except Failure Decimal := rescale pi halfTurnDegrees
def degToGrad : Decimal → Except Failure Decimal := rescale halfTurnGradians halfTurnDegrees
def radToDeg : Decimal → Except Failure Decimal := rescale halfTurnDegrees pi
def radToGrad : Decimal → Except Failure Decimal := rescale halfTurnGradians pi
def gradToDeg : Decimal → Except Failure Decimal := rescale halfTurnDegrees halfTurnGradians
def gradToRad : Decimal → Except Failure Decimal := rescale pi halfTurnGradians

/-- An angle in the given unit, in radians. -/
def toRadians (unit : AngleUnit) (a : Decimal) : Except Failure Decimal :=
  match unit with
  | .rad => .ok a
  | .deg => degToRad a
  | .grad => gradToRad a

/-- An angle in radians, in the given unit. -/
def fromRadians (unit : AngleUnit) (a : Decimal) : Except Failure Decimal :=
  match unit with
  | .rad => .ok a
  | .deg => radToDeg a
  | .grad => radToGrad a

end Numeric

end Reckon
