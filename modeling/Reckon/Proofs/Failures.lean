import Reckon.Formula.Bindings
import Reckon.Formula.Reader
import Reckon.Numeric.Apply
import Reckon.Proofs.Results

/-!
# Which failures can come from where

`FailsOnly P r`: whatever failure the computation `r` has satisfies `P`. Operators only fail because
of their operands (`Unary.failsOnly_apply`, `Binary.failsOnly_apply`), the reader only because a
text is malformed or too deep (`failsOnly_readFormula`). So neither of them says that a name is
unbound or defined in terms of itself, and no operator is too deep.
-/

namespace Reckon

/-- Whatever failure the computation has satisfies `P`. -/
def FailsOnly {α : Type} (P : Failure → Prop) (r : Except Failure α) : Prop :=
  ∀ f, r = .error f → P f

/-- An operator has no value because of its operands. -/
def Failure.IsNumeric : Failure → Prop
  | .undefined (.unbound _) | .undefined (.cyclic _) | .undefined (.unknownOperator _) => False
  | .undefined _ | .signal _ | .infiniteInteger => True
  | _ => False

/-- An operator has no value at finite operands. -/
def Failure.IsArithmetic : Failure → Prop
  | .undefined (.unbound _) | .undefined (.cyclic _) | .undefined (.unknownOperator _) => False
  | .undefined _ | .signal _ => True
  | _ => False

theorem Failure.IsArithmetic.isNumeric {f : Failure} (h : f.IsArithmetic) : f.IsNumeric := by
  cases f with
  | undefined cause => cases cause <;> exact h
  | signal cause => trivial
  | _ => cases h

/-- A text has no tree. -/
def Failure.IsOfReading : Failure → Prop
  | .malformed _ | .tooDeep => True
  | _ => False

section
variable {α β : Type} {P : Failure → Prop} {f : Failure} {r r' : Except Failure α}

@[simp] theorem failsOnly_ok (a : α) : FailsOnly P (.ok a : Except Failure α) :=
  fun _ h => nomatch h

@[simp] theorem failsOnly_pure (a : α) : FailsOnly P (pure a : Except Failure α) :=
  fun _ h => nomatch h

@[simp] theorem failsOnly_error : FailsOnly P (.error f : Except Failure α) ↔ P f := by
  constructor
  · intro h
    exact h f rfl
  · rintro h _ ⟨⟩
    exact h

@[simp] theorem failsOnly_throw : FailsOnly P (throw f : Except Failure α) ↔ P f :=
  failsOnly_error

/-- A computation in two steps fails in one of them. -/
@[simp] theorem failsOnly_bind {next : α → Except Failure β} :
    FailsOnly P (r >>= next) ↔ FailsOnly P r ∧ ∀ a, r = .ok a → FailsOnly P (next a) := by
  cases r with
  | error f =>
    change FailsOnly P (.error f) ↔ _
    simp only [failsOnly_error, reduceCtorEq, false_imp_iff, implies_true, and_true]
  | ok a =>
    change FailsOnly P (next a) ↔ _
    simp only [failsOnly_ok, Except.ok.injEq, forall_eq', true_and]

theorem FailsOnly.mono {Q : Failure → Prop} (h : FailsOnly P r) (hPQ : ∀ f, P f → Q f) :
    FailsOnly Q r :=
  fun f hf => hPQ f (h f hf)

theorem FailsOnly.bind {next : α → Except Failure β} (h : FailsOnly P r)
    (hnext : ∀ a, FailsOnly P (next a)) : FailsOnly P (r >>= next) :=
  failsOnly_bind.mpr ⟨h, fun a _ => hnext a⟩

@[simp] theorem failsOnly_map {g : α → β} : FailsOnly P (g <$> r) ↔ FailsOnly P r := by
  cases r with
  | error f => exact Iff.rfl.trans failsOnly_error |>.trans failsOnly_error.symm
  | ok a => exact ⟨fun _ => failsOnly_ok a, fun _ => failsOnly_ok (g a)⟩

@[simp] theorem failsOnly_ite {c : Prop} [Decidable c] :
    FailsOnly P (if c then r else r') ↔ (c → FailsOnly P r) ∧ (¬c → FailsOnly P r') := by
  split <;> simp [*]

theorem FailsOnly.numeric (h : FailsOnly Failure.IsArithmetic r) : FailsOnly Failure.IsNumeric r :=
  h.mono fun _ => Failure.IsArithmetic.isNumeric

theorem failsOnly_signal (r : Except Signal α) :
    FailsOnly Failure.IsArithmetic (r.mapError .signal) := by
  cases r with
  | error s => exact failsOnly_error.mpr trivial
  | ok a => exact failsOnly_ok a

@[simp] theorem failsOnly_liftM (r : Except Signal α) :
    FailsOnly Failure.IsArithmetic (liftM r : Except Failure α) :=
  failsOnly_signal r

end

/-! ### Operators -/

namespace Numeric
variable {α : Type} {op : String} {a b c : Decimal}

@[simp] theorem failsOnly_divisionByZero :
    FailsOnly Failure.IsArithmetic (divisionByZero op : Except Failure α) :=
  failsOnly_error.mpr trivial

@[simp] theorem failsOnly_tooLarge :
    FailsOnly Failure.IsArithmetic (tooLarge op : Except Failure α) :=
  failsOnly_error.mpr trivial

@[simp] theorem failsOnly_outsideDomain {expected : Option String} :
    FailsOnly Failure.IsArithmetic (outsideDomain op a expected : Except Failure α) :=
  failsOnly_error.mpr trivial

@[simp] theorem failsOnly_widen {x : Binary64} : FailsOnly Failure.IsArithmetic (widen op x) := by
  cases x with
  | finite => exact failsOnly_ok _
  | infinite | nan => exact failsOnly_tooLarge

@[simp] theorem failsOnly_viaDouble [Binary64.Library] {f : Binary64.Elementary} :
    FailsOnly Failure.IsArithmetic (viaDouble f op a) := by
  rw [viaDouble]
  split
  · exact failsOnly_widen
  · exact failsOnly_tooLarge
  · exact failsOnly_outsideDomain

@[simp] theorem failsOnly_divide : FailsOnly Failure.IsArithmetic (divide op a b) := by
  simp [divide]

@[simp] theorem failsOnly_reciprocal : FailsOnly Failure.IsArithmetic (reciprocal op a) :=
  failsOnly_divide

@[simp] theorem failsOnly_checkRange {low high : Decimal} :
    FailsOnly Failure.IsArithmetic (checkRange op a low high) := by
  simp [checkRange]

@[simp] theorem failsOnly_inverseOfReciprocal [Binary64.Library] {f : Binary64.Elementary} :
    FailsOnly Failure.IsArithmetic (inverseOfReciprocal f op a) := by
  simp [inverseOfReciprocal]

@[simp] theorem failsOnly_rescale : FailsOnly Failure.IsArithmetic (rescale b c a) := by
  simp [rescale, failsOnly_signal]

theorem failsOnly_toRadians (unit : AngleUnit) :
    FailsOnly Failure.IsArithmetic (toRadians unit a) := by
  cases unit with
  | rad => exact failsOnly_ok a
  | deg | grad => exact failsOnly_rescale

theorem failsOnly_fromRadians (unit : AngleUnit) :
    FailsOnly Failure.IsArithmetic (fromRadians unit a) := by
  cases unit with
  | rad => exact failsOnly_ok a
  | deg | grad => exact failsOnly_rescale

@[simp] theorem failsOnly_factorialArgument :
    FailsOnly Failure.IsArithmetic (factorialArgument op a) := by
  simp [factorialArgument, factorialArgument.isNotNatural, Failure.IsArithmetic]

/-- An infinity has no root: the first guess is made of its integer part. -/
theorem failsOnly_firstGuess : FailsOnly Failure.IsNumeric (firstGuess a) := by
  cases a with
  | finite => exact failsOnly_ok _
  | infinite | nan => exact failsOnly_error.mpr trivial

theorem failsOnly_sqrt : FailsOnly Failure.IsNumeric (sqrt a) := by
  have hsignal {α : Type} (r : Except Signal α) :
      FailsOnly Failure.IsNumeric (liftM r : Except Failure α) :=
    (failsOnly_liftM r).numeric
  have hdomain {expected : Option String} :
      FailsOnly Failure.IsNumeric (outsideDomain "sqrt" a expected : Except Failure Decimal) :=
    failsOnly_outsideDomain.numeric
  simp [sqrt, failsOnly_firstGuess, hsignal, hdomain]

theorem failsOnly_ln [Binary64.Library] : FailsOnly Failure.IsArithmetic (ln a) := by
  simp [ln]

theorem failsOnly_log [Binary64.Library] : FailsOnly Failure.IsArithmetic (log a b) := by
  simp [log, failsOnly_ln]

theorem failsOnly_isSmallInteger :
    FailsOnly Failure.IsArithmetic (power.isSmallInteger b) := by
  simp [power.isSmallInteger]

theorem failsOnly_isNegativePowerOfZero :
    FailsOnly Failure.IsArithmetic (power.isNegativePowerOfZero a b) := by
  simp [power.isNegativePowerOfZero]

theorem failsOnly_power [Binary64.Library] : FailsOnly Failure.IsArithmetic (power a b) := by
  simp only [power, failsOnly_ite, failsOnly_bind, failsOnly_pure, failsOnly_liftM,
    failsOnly_divisionByZero, failsOnly_isNegativePowerOfZero, failsOnly_isSmallInteger, true_and,
    implies_true]
  intro _ _ _ _ small _
  constructor
  · intro _ r _
    cases r with
    | infinite => exact failsOnly_tooLarge
    | finite | nan => exact failsOnly_pure _
  · intro _
    split
    · exact failsOnly_widen
    · exact failsOnly_tooLarge
    · exact failsOnly_outsideDomain

theorem failsOnly_unary_of_ne_sqrt [Binary64.Library] {op : Unary} (hop : op ≠ .sqrt)
    (a : Decimal) :
    FailsOnly Failure.IsArithmetic (op.numeric a) := by
  cases op with
  | not => exact failsOnly_ok _
  | sin | cos | tan | sinh | cosh | tanh | asinh | atan | exp => exact failsOnly_viaDouble
  | cotan | sec | csc => simp [Unary.numeric, cotan, sec, csc, cos, sin, tan]
  | exsec | vers | covers | hav | sinc =>
    simp [Unary.numeric, exsec, sec, vers, covers, hav, sinc, cos, sin]
  | asin | acos | acotan | asec | acsc | aexsec | avers | acovers | ahav =>
    simp [Unary.numeric, asin, acos, acotan, atan, asec, acsc, aexsec, avers, acovers, ahav]
  | cotanh | sech | csch => simp [Unary.numeric, cotanh, sech, csch, sinh, cosh, tanh]
  | acosh | atanh | acoth | asech | acsch =>
    simp [Unary.numeric, acosh, atanh, acoth, asech, acsch]
  | ln => exact failsOnly_ln
  | sqrt => exact absurd rfl hop
  | abs | fpart => exact failsOnly_signal _
  | round => simp [Unary.numeric, round]
  | ceil | floor => exact failsOnly_ok _
  | fac | sfac => simp [Unary.numeric, fac, sfac]
  | degToRad | degToGrad | radToDeg | radToGrad | gradToDeg | gradToRad => exact failsOnly_rescale

theorem failsOnly_unary [Binary64.Library] (op : Unary) (a : Decimal) :
    FailsOnly Failure.IsNumeric (op.numeric a) := by
  by_cases hop : op = .sqrt
  · subst hop
    exact failsOnly_sqrt
  · exact (failsOnly_unary_of_ne_sqrt hop a).numeric

theorem failsOnly_binary [Binary64.Library] (op : Binary) (a b : Decimal) :
    FailsOnly Failure.IsArithmetic (op.numeric a b) := by
  cases op with
  | power => exact failsOnly_power
  | times | plus | minus => exact failsOnly_signal _
  | div => exact failsOnly_divide
  | modulo => simp [Binary.numeric, remainder]
  | log => exact failsOnly_log
  | greater | less | atLeast | atMost => simp [Binary.numeric]
  | equal | unequal | or | and => exact failsOnly_ok _

end Numeric

open Numeric

theorem Failure.IsNumeric.within {f : Failure} (h : f.IsNumeric) (op : String) :
    (f.within op).IsNumeric := by
  cases f with
  | signal cause => cases cause <;> trivial
  | _ => exact h

theorem FailsOnly.within {α : Type} {r : Except Failure α} (h : FailsOnly Failure.IsNumeric r)
    (op : String) : FailsOnly Failure.IsNumeric (r.mapError (·.within op)) := by
  cases r with
  | error f => exact failsOnly_error.mpr ((failsOnly_error.mp h).within op)
  | ok a => exact failsOnly_ok a

theorem Unary.failsOnly_apply [Binary64.Library] (unit : AngleUnit) (op : Unary) (a : Decimal) :
    FailsOnly Failure.IsNumeric (op.apply unit a) := by
  have hto : FailsOnly Failure.IsNumeric (toRadians unit a) :=
    (failsOnly_toRadians unit).numeric
  have hfrom (r : Decimal) : FailsOnly Failure.IsNumeric (fromRadians unit r) :=
    (failsOnly_fromRadians unit).numeric
  refine FailsOnly.within ?_ op.name
  simp [hto, hfrom, failsOnly_unary]

theorem Binary.failsOnly_apply [Binary64.Library] (op : Binary) (a b : Decimal) :
    FailsOnly Failure.IsNumeric (op.apply a b) :=
  ((failsOnly_binary op a b).numeric).within op.name

/-! ### Reading -/

namespace Formula

theorem failsOnly_prepare (s : List Char) : FailsOnly Failure.IsOfReading (prepare s) := by
  simp [prepare, Failure.IsOfReading]

theorem failsOnly_validateCharacters (s : List Char) :
    FailsOnly Failure.IsOfReading (validateCharacters s) := by
  induction s with
  | nil => exact failsOnly_ok ()
  | cons c s ih =>
    rw [validateCharacters]
    split
    · split
      · simp [ih, Failure.IsOfReading]
      · exact ih
    · simp [ih, Failure.IsOfReading]

theorem failsOnly_validate (s : List Char) : FailsOnly Failure.IsOfReading (validate s) := by
  simp [validate, failsOnly_validateCharacters, Failure.IsOfReading]

theorem failsOnly_readChain {below : List Char → Except Failure Tree}
    (hbelow : ∀ s, FailsOnly Failure.IsOfReading (below s)) (whole : List Char)
    (tree : Option Tree) (s : List Char) :
    FailsOnly Failure.IsOfReading (readChain below whole tree s) := by
  fun_induction readChain below whole tree s with
  | case1 tree => exact failsOnly_ok tree
  | case7 _ _ _ _ _ _ _ _ _ _ ih =>
    exact (hbelow _).bind fun left => (hbelow _).bind fun right => ih left right
  | case9 _ _ _ _ _ _ _ ih => exact (hbelow _).bind ih
  | case12 _ _ _ _ _ _ _ _ ih => exact (hbelow _).bind ih
  | _ => exact failsOnly_error.mpr trivial

theorem failsOnly_readLevels (levels : Nat) (s : List Char) :
    FailsOnly Failure.IsOfReading (readLevels levels s) := by
  induction levels generalizing s with
  | zero => exact failsOnly_error.mpr trivial
  | succ levels ih =>
    rw [readLevels]
    split
    · exact failsOnly_error.mpr trivial
    split
    · exact ih _
    split
    · exact failsOnly_ok _
    split
    · exact failsOnly_ok _
    · exact failsOnly_readChain ih s none s

theorem failsOnly_readFormula (s : List Char) : FailsOnly Failure.IsOfReading (readFormula s) := by
  simp [readFormula, failsOnly_prepare, failsOnly_validate, read, failsOnly_readLevels]

end Formula

/-- Only an integer can fail to be written. -/
theorem Bound.eq_integerTooLong_of_content {bound : Bound} {f : Failure}
    (h : bound.content = .error f) : f = .integerTooLong := by
  cases bound with
  | integer n =>
    rw [content] at h
    split at h
    · exact (Except.error.inj h).symm
    · cases h
  | _ => cases h

end Reckon
