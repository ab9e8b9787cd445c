import Reckon.Proofs.Ensures
import Reckon.Simplify.Combine

/-!
# Trees that rules build

A tree `IsNormal` if its numbers are finite and the rules leave each of its operations as it is,
without asking for any other tree. That is one of the properties that operands inherit from an
operation and that an operation has again if no rule changes it (`IsInherited`). A plan builds trees
with such a property as long as the trees that it is answered with have it (`Builds`).
-/

namespace Reckon

namespace Simplify

open Reckon.Tree (number var unary binary)

/-- The rule for `a op b` leaves it as it is, whatever trees there are to ask for. -/
def Rests (op : Binary) (a b : Tree) : Prop :=
  ∀ combine : Combine,
    (rule op a b).follow (Arithmetic.working.answer combine) = .ok (binary op a b)

/-- The rule for `op a` leaves it as it is. -/
def UnaryRests (op : Unary) (a : Tree) : Prop :=
  ∀ combine : Combine,
    (unaryRule op a).follow (Arithmetic.working.answer combine) = .ok (unary op a)

end Simplify

namespace Tree

/-- Finite numbers, and operations that no rule changes. -/
def IsNormal : Tree → Prop
  | number a => a.isFinite = true
  | var _ => True
  | unary op a => a.IsNormal ∧ Simplify.UnaryRests op a
  | binary op a b => a.IsNormal ∧ b.IsNormal ∧ Simplify.Rests op a b

end Tree

namespace Simplify

open Reckon.Tree (number var unary binary)

/-! ### Inherited properties -/

/-- The operators of one operand with rules of their own. -/
def isSimplified : Unary → Bool
  | .sqrt | .sin | .cos | .tan | .cotan | .acotan | .ln | .exp => true
  | _ => false

/-- A property of trees with finite numbers that operands inherit. An operation that no rule changes
has it if its operands have it. -/
class IsInherited (P : Tree → Prop) : Prop where
  number_iff : ∀ {c : Decimal}, P (number c) ↔ c.isFinite = true
  operand : ∀ {op : Unary} {a : Tree}, P (unary op a) → P a
  operands : ∀ {op : Binary} {a b : Tree}, P (binary op a b) → P a ∧ P b
  unary : ∀ {op : Unary} {a : Tree}, isSimplified op = true → P a → UnaryRests op a →
    P (unary op a)
  binary : ∀ {op : Binary} {a b : Tree}, P a → P b → Rests op a b → P (binary op a b)

instance : IsInherited Tree.IsNormal where
  number_iff := Iff.rfl
  operand h := h.1
  operands h := ⟨h.1, h.2.1⟩
  unary _ ha h := ⟨ha, h⟩
  binary ha hb h := ⟨ha, hb, h⟩

/-- The numbers of a computation have the property. -/
def Computation.Has (P : Tree → Prop) : Computation → Prop
  | sum a b | difference a b | product a b => P (number a) ∧ P (number b)
  | opposite a | kept a => P (number a)

/-- Numbers in answers have `P` if those that they were computed from have it, integers are what the
working arithmetic makes of them, and trees put together from trees with `P` have `P`. -/
def Tidy (P : Tree → Prop) : Expectation
  | .number c, a => c.Has P → P (number a)
  | .integer c, r => Arithmetic.working.integer c = .ok r ∧ ∀ a ∈ r, P (number a)
  | .tree _ a b, s => P a → P b → P s

/-- The plan builds a tree with `P`. -/
abbrev Builds (P : Tree → Prop) (p : Plan Tree) : Prop :=
  Ensures (Tidy P) p P

theorem rests_of_rule {op : Binary} {a b : Tree} (h : rule op a b = .done (binary op a b)) :
    Rests op a b := fun combine => by
  rw [h]
  rfl

namespace Builds
open IsInherited (number_iff)
variable {P : Tree → Prop} {op : Binary} {a b t : Tree} {c : Decimal}

theorem combine (ha : P a) (hb : P b) : Builds P (Plan.combine op a b) :=
  fun _ hs => hs ha hb

theorem kept (hc : P (number c)) : Builds P (kept c) :=
  fun _ h => h hc

theorem rounded {c : Computation} (hc : c.Has P) : Builds P (rounded c) :=
  fun _ h => kept (h hc)

theorem negated (hc : P (number c)) : Builds P (negated c) :=
  rounded hc

variable [IsInherited P]

theorem zero : P Tree.zero := number_iff.mpr rfl

theorem one : P Tree.one := number_iff.mpr rfl

theorem two : P Tree.two := number_iff.mpr rfl

theorem minusOne : P Tree.minusOne := number_iff.mpr rfl

theorem twice (ht : P t) : Builds P (twice t) :=
  combine two ht

theorem opposite (ht : P t) : Builds P (opposite t) :=
  combine minusOne ht

theorem square (ht : P t) : Builds P (square t) :=
  combine ht two

section
variable (hc : P (number c)) (ht : P t)
include hc ht

theorem oneMore : Builds P (oneMore c t) :=
  (combine one hc).bind fun _ h => combine h ht

theorem oneLess : Builds P (oneLess c t) :=
  (combine hc one).bind fun _ h => combine h ht

theorem oneMinus : Builds P (oneMinus c t) :=
  (combine one hc).bind fun _ h => combine h ht

theorem minusOneMinus : Builds P (minusOneMinus c t) :=
  (combine minusOne hc).bind fun _ h => combine h ht

end

/-- A rule that leaves its operation as it is. -/
theorem of_rule (ha : P a) (hb : P b) (h : rule op a b = .done (binary op a b)) :
    Builds P (rule op a b) := by
  rw [h]
  exact IsInherited.binary ha hb (rests_of_rule h)

end Builds

end Simplify

end Reckon
