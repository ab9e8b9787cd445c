import Reckon.Numeric.Apply
import Reckon.Proofs.AlikeDoubles
import Reckon.Proofs.AlikeOrder

/-!
# Operators on forms of a number

No operator tells the forms of its operands apart: the values at two forms of a number are forms of
one number, or both fail for the same reason (`Unary.agree_apply`, `Binary.agree_apply`). A failure
may quote a number; the two quotes are then `Failure.Alike`.
-/

namespace Reckon

/-- One reason; a number that it quotes may have two forms. -/
inductive Failure.Alike : Failure → Failure → Prop
  | refl (f : Failure) : Alike f f
  | outsideDomain {a b : Decimal} (op : String) (expected : Option String) (h : a.Alike b) :
      Alike (.undefined (.outsideDomain op a expected)) (.undefined (.outsideDomain op b expected))
  | invalidArgument {a b : Decimal} (op expected : String) (h : a.Alike b) :
      Alike (.undefined (.invalidArgument op a expected))
        (.undefined (.invalidArgument op b expected))

/-- Values with the same outcome, up to the forms of numbers. -/
abbrev AgreeValue := Agree Failure.Alike Decimal.Alike

section
variable {α β γ : Type} {R : β → γ → Prop} {r r' : Except Failure Decimal}

@[refl] theorem agreeValue_refl (r : Except Failure Decimal) : AgreeValue r r :=
  .refl .refl .refl r

/-- What follows a computation agrees if it does at every result. -/
theorem agree_bind (x : Except Failure α) {f : α → Except Failure β} {g : α → Except Failure γ}
    (h : ∀ a, Agree Failure.Alike R (f a) (g a)) : Agree Failure.Alike R (x >>= f) (x >>= g) := by
  cases x with
  | ok a => exact h a
  | error f => exact .error (.refl f)

theorem agree_ite {c : Prop} [Decidable c] {x y : Except Failure β} {x' y' : Except Failure γ}
    (h : Agree Failure.Alike R x x') (h' : Agree Failure.Alike R y y') :
    Agree Failure.Alike R (if c then x else y) (if c then x' else y') := by
  split
  · exact h
  · exact h'

theorem agree_liftM {r r' : Except Signal Decimal} (h : AgreeDecimal r r') :
    AgreeValue (liftM r) (liftM r') := by
  cases h with
  | ok h => exact .ok h
  | error h =>
    obtain rfl := h
    exact .error (.refl _)

theorem bind_eq_of_agree {r r' : Except Signal Decimal} (h : AgreeDecimal r r')
    {f g : Decimal → Except Failure β} (hfg : ∀ a b, a.Alike b → f a = g b) :
    ((liftM r : Except Failure Decimal) >>= f) = (liftM r' : Except Failure Decimal) >>= g := by
  cases h with
  | ok h => exact hfg _ _ h
  | error h => rw [h]; rfl

theorem agree_mapError_signal {r r' : Except Signal Decimal} (h : AgreeDecimal r r') :
    AgreeValue (r.mapError .signal) (r'.mapError .signal) :=
  agree_liftM h

theorem agree_mapError_within (op : String) (h : AgreeValue r r') :
    AgreeValue (r.mapError (·.within op)) (r'.mapError (·.within op)) := by
  cases h with
  | ok h => exact .ok h
  | error h =>
    cases h with
    | refl f => exact .error (.refl _)
    | outsideDomain op expected h => exact .error (.outsideDomain op expected h)
    | invalidArgument op expected h => exact .error (.invalidArgument op expected h)

end

open Decimal

namespace Numeric
variable {op : String} {a a' b b' c : Decimal}

theorem agree_outsideDomain {α : Type} {R : α → α → Prop} (ha : a.Alike a')
    (expected : Option String) :
    Agree Failure.Alike R (outsideDomain op a expected) (outsideDomain op a' expected) :=
  .error (.outsideDomain op expected ha)

/-! ### Through doubles -/

theorem agree_viaDouble [Binary64.Library] {f : Binary64.Elementary} (ha : a.Alike a') :
    AgreeValue (viaDouble f op a) (viaDouble f op a') := by
  rw [viaDouble, viaDouble, ha.ofDecimal_eq]
  split
  · exact agreeValue_refl _
  · exact agreeValue_refl _
  · exact agree_outsideDomain ha none

theorem agree_divide (ha : a.Alike a') (hb : b.Alike b') :
    AgreeValue (divide op a b) (divide op a' b') := by
  rw [divide, divide, hb.isZero_eq]
  exact agree_ite (agreeValue_refl _) (agree_liftM (agree_div ha hb))

theorem agree_reciprocal (ha : a.Alike a') : AgreeValue (reciprocal op a) (reciprocal op a') :=
  agree_divide (.refl _) ha

/-- Both numbers are in the range, or neither. -/
theorem agree_checkRange (ha : a.Alike a') (low high : Decimal) :
    Agree Failure.Alike (· = ·) (checkRange op a low high) (checkRange op a' low high) := by
  rw [checkRange, checkRange, ha.less_eq (.refl low), Alike.less_eq (.refl high) ha]
  exact agree_bind _ fun _ => agree_bind _ fun _ => agree_ite (agree_outsideDomain ha _) (.ok rfl)

theorem agree_inverseOfReciprocal [Binary64.Library] {f : Binary64.Elementary} (ha : a.Alike a') :
    AgreeValue (inverseOfReciprocal f op a) (inverseOfReciprocal f op a') :=
  (agree_reciprocal ha).bind fun _ _ h => (agree_checkRange h _ _).bind fun _ _ _ =>
    agree_viaDouble h

theorem agree_rescale (ha : a.Alike a') : AgreeValue (rescale b c a) (rescale b c a') :=
  (agree_liftM (agree_mul ha (.refl b))).bind fun _ _ h =>
    agree_mapError_signal (agree_div h (.refl c))

theorem agree_toRadians (unit : AngleUnit) (ha : a.Alike a') :
    AgreeValue (toRadians unit a) (toRadians unit a') := by
  cases unit with
  | rad => exact .ok ha
  | deg | grad => exact agree_rescale ha

theorem agree_fromRadians (unit : AngleUnit) (ha : a.Alike a') :
    AgreeValue (fromRadians unit a) (fromRadians unit a') := by
  cases unit with
  | rad => exact .ok ha
  | deg | grad => exact agree_rescale ha

/-! ### Powers and roots -/

theorem toInt_eq (h : a.Alike a') : toInt a = toInt a' := by
  cases a with
  | finite m c e =>
    obtain ⟨d, k, rfl, hc⟩ := h.exists_of_finite
    rw [toInt, toInt, magnitude_eq_of_mul_zpow_eq hc]
  | infinite | nan =>
    obtain rfl := h
    rfl

/-- The exponents of two forms are small integers, or neither is. -/
theorem isSmallInteger_eq (h : b.Alike b') :
    power.isSmallInteger b = power.isSmallInteger b' := by
  have habs : AgreeDecimal (abs .plain b) (abs .plain b') := agree_abs h
  rw [power.isSmallInteger, power.isSmallInteger, h.isIntegral_eq]
  split
  · exact bind_eq_of_agree habs fun _ _ hc => by rw [hc.atMost_eq (.refl _)]
  · rfl

theorem agree_power [Binary64.Library] (ha : a.Alike a') (hb : b.Alike b') :
    AgreeValue (power a b) (power a' b') := by
  have hzero : power.isNegativePowerOfZero a b = power.isNegativePowerOfZero a' b' := by
    rw [power.isNegativePowerOfZero, power.isNegativePowerOfZero, ha.isZero_eq,
      hb.less_eq (.refl zero)]
  rw [power, power, hb.isZero_eq, hzero, isSmallInteger_eq hb, toInt_eq hb, ha.ofDecimal_eq,
    hb.ofDecimal_eq]
  refine agree_ite (agreeValue_refl _) (agree_bind _ fun _ => ?_)
  refine agree_ite (agreeValue_refl _) (agree_bind _ fun _ => agree_ite ?_ ?_)
  · refine (agree_liftM (Decimal.agree_power ha _)).bind fun r r' hr => ?_
    cases r with
    | finite =>
      obtain ⟨c', e', rfl, hc⟩ := hr.exists_of_finite
      exact .ok ⟨rfl, hc⟩
    | infinite | nan =>
      obtain rfl := hr
      exact agreeValue_refl _
  · split
    · exact agreeValue_refl _
    · exact agreeValue_refl _
    · exact agree_outsideDomain ha _

theorem agree_improve (ha : a.Alike a') (hb : b.Alike b') :
    AgreeDecimal (improve a b) (improve a' b') := by
  refine (agree_div ha hb).bind fun _ _ h => (agree_quantize h _).bind fun _ _ h => ?_
  refine (agree_add (by decide) h hb).bind fun _ _ h => ?_
  refine (agree_div h (.refl two)).bind fun _ _ h => ?_
  exact agree_quantize h _

theorem agree_newton (ha : a.Alike a') (steps : Nat) (hb : b.Alike b') :
    AgreeDecimal (newton a steps b) (newton a' steps b') := by
  induction steps generalizing b b' with
  | zero => exact .ok hb
  | succ steps ih =>
    rw [newton, newton]
    refine (agree_improve ha hb).bind fun next next' hnext =>
      (agree_mul hnext hnext).bind fun square square' hsquare =>
        (agree_sub (by decide) ha hsquare).bind fun error error' herror => ?_
    rw [hb.same_eq hnext]
    split
    · refine (agree_abs herror).bind fun size size' hsize => ?_
      rw [hsize.less_eq (.refl one)]
      cases size'.less one with
      | error => exact .error rfl
      | ok small =>
        cases small with
        | true => exact .ok hnext
        | false => exact ih hnext
    · exact ih hnext

theorem agree_firstGuess (ha : a.Alike a') : AgreeValue (firstGuess a) (firstGuess a') := by
  cases a with
  | finite m c e =>
    obtain ⟨d, k, rfl, hc⟩ := ha.exists_of_finite
    rw [firstGuess, firstGuess, magnitude_eq_of_mul_zpow_eq hc]
  | infinite | nan =>
    obtain rfl := ha
    exact agreeValue_refl _

theorem leadingExponent_eq (h : a.Alike a') (ha : a.isZero = false) :
    a.leadingExponent = a'.leadingExponent := by
  cases a with
  | finite m c e =>
    obtain ⟨d, k, rfl, hc⟩ := h.exists_of_finite
    have hne : c ≠ 0 := by
      rintro rfl
      simp [isZero, same, compare?, zero, ofNat] at ha
    rw [leadingExponent, leadingExponent, leading_eq hne hc]
  | infinite | nan =>
    obtain rfl := h
    rfl

theorem agree_sqrt (h : a.Alike a') : AgreeValue (sqrt a) (sqrt a') := by
  rw [sqrt, sqrt, h.less_eq (.refl zero)]
  refine agree_bind _ fun _ => agree_ite (agree_outsideDomain h _) ?_
  cases ha : a.isZero with
  | true =>
    rw [← h.isZero_eq, ha]
    exact agreeValue_refl _
  | false =>
    rw [← h.isZero_eq, ha, ← leadingExponent_eq h ha]
    refine (agree_liftM (agree_scale h _)).bind fun _ _ hmantissa => ?_
    refine (agree_firstGuess hmantissa).bind fun _ _ hguess => ?_
    refine (agree_liftM (agree_newton hmantissa _ hguess)).bind fun _ _ hroot => ?_
    exact (agree_liftM (agree_scale hroot _)).bind fun _ _ hr => agree_liftM (agree_plus hr)

/-! ### Operators -/

theorem agree_factorialArgument (h : a.Alike a') :
    Agree Failure.Alike (· = ·) (factorialArgument op a) (factorialArgument op a') := by
  have hnatural : factorialArgument.isNotNatural a = factorialArgument.isNotNatural a' := by
    rw [factorialArgument.isNotNatural, factorialArgument.isNotNatural, h.isIntegral_eq,
      h.less_eq (.refl zero)]
  rw [factorialArgument, factorialArgument, hnatural, Alike.less_eq (.refl _) h, toInt_eq h]
  refine agree_bind _ fun _ => agree_ite (.error (.invalidArgument op _ h)) ?_
  exact agree_bind _ fun _ => agree_ite (.error (.invalidArgument op _ h)) (.ok rfl)

theorem agree_ln [Binary64.Library] (h : a.Alike a') : AgreeValue (ln a) (ln a') := by
  rw [ln, ln, h.atMost_eq (.refl zero)]
  exact agree_bind _ fun _ => agree_ite (agree_outsideDomain h _) (agree_viaDouble h)

theorem agree_log [Binary64.Library] (ha : a.Alike a') (hb : b.Alike b') :
    AgreeValue (log a b) (log a' b') := by
  rw [log, log, ha.atMost_eq (.refl zero), hb.atMost_eq (.refl zero)]
  refine agree_bind _ fun _ => agree_ite (agree_outsideDomain ha _) ?_
  refine agree_bind _ fun _ => agree_ite (agree_outsideDomain hb _) ?_
  exact (agree_ln ha).bind fun _ _ hx => (agree_ln hb).bind fun _ _ hy => agree_divide hx hy

/-- What is left of one. -/
theorem agree_oneMinus {r r' : Except Failure Decimal} (h : AgreeValue r r') :
    AgreeValue (r >>= fun c => liftM (sub .working one c))
      (r' >>= fun c => liftM (sub .working one c)) :=
  h.bind fun _ _ hc => agree_liftM (agree_sub (by decide) (.refl one) hc)

theorem agree_unary [Binary64.Library] (op : Unary) (h : a.Alike a') :
    AgreeValue (op.numeric a) (op.numeric a') := by
  have hdiv : AgreeValue (liftM (div .quotient one a)) (liftM (div .quotient one a')) :=
    agree_liftM (agree_div (.refl one) h)
  cases op with
  | not =>
    simp only [Unary.numeric, h.same_eq (.refl one)]
    exact agreeValue_refl _
  | sin | cos | tan | sinh | cosh | tanh | asinh | atan | exp => exact agree_viaDouble h
  | cotan | sec | csc | cotanh | sech | csch =>
    exact (agree_viaDouble h).bind fun _ _ => agree_reciprocal
  | exsec =>
    have hsec : AgreeValue (sec a) (sec a') :=
      (agree_viaDouble h).bind fun _ _ => agree_reciprocal
    exact hsec.bind fun _ _ hc => agree_liftM (agree_sub (by decide) hc (.refl one))
  | vers | covers => exact agree_oneMinus (agree_viaDouble h)
  | hav =>
    have hvers : AgreeValue (vers a) (vers a') := agree_oneMinus (agree_viaDouble h)
    exact hvers.bind fun _ _ hc => agree_liftM (agree_mul (.refl half) hc)
  | sinc =>
    simp only [Unary.numeric, sinc, h.isZero_eq]
    refine agree_ite (agreeValue_refl _) ?_
    exact (agree_viaDouble h).bind fun _ _ hs => agree_divide hs h
  | asin | acos => exact (agree_checkRange h _ _).bind fun _ _ _ => agree_viaDouble h
  | acotan =>
    simp only [Unary.numeric, acotan, h.isZero_eq]
    exact agree_ite (agreeValue_refl _) (hdiv.bind fun _ _ => agree_viaDouble)
  | asec | acsc => exact (agree_checkRange h _ _).bind fun _ _ _ => agree_inverseOfReciprocal h
  | aexsec =>
    exact (agree_checkRange h _ _).bind fun _ _ _ =>
      (agree_liftM (agree_add (by decide) (.refl one) h)).bind fun _ _ => agree_inverseOfReciprocal
  | avers | acovers =>
    exact (agree_checkRange h _ _).bind fun _ _ _ =>
      (agree_liftM (agree_sub (by decide) (.refl one) h)).bind fun _ _ hc =>
        (agree_checkRange hc _ _).bind fun _ _ _ => agree_viaDouble hc
  | ahav =>
    exact (agree_checkRange h _ _).bind fun _ _ _ =>
      (agree_liftM (agree_mul (.refl two) h)).bind fun _ _ hc =>
        (agree_liftM (agree_sub (by decide) (.refl one) hc)).bind fun _ _ hc =>
          (agree_checkRange hc _ _).bind fun _ _ _ => agree_viaDouble hc
  | ln => exact agree_ln h
  | acosh =>
    simp only [Unary.numeric, acosh, h.less_eq (.refl one)]
    exact agree_bind _ fun _ => agree_ite (agree_outsideDomain h _) (agree_viaDouble h)
  | atanh =>
    simp only [Unary.numeric, atanh, h.atMost_eq (.refl minusOne), Alike.atMost_eq (.refl one) h]
    exact agree_bind _ fun _ => agree_bind _ fun _ =>
      agree_ite (agree_outsideDomain h _) (agree_viaDouble h)
  | acoth =>
    simp only [Unary.numeric, acoth, h.atMost_eq (.refl one), Alike.atMost_eq (.refl minusOne) h]
    exact agree_bind _ fun _ => agree_bind _ fun _ =>
      agree_ite (agree_outsideDomain h _) (hdiv.bind fun _ _ => agree_viaDouble)
  | asech =>
    simp only [Unary.numeric, asech, h.atMost_eq (.refl zero), Alike.less_eq (.refl one) h]
    exact agree_bind _ fun _ => agree_bind _ fun _ =>
      agree_ite (agree_outsideDomain h _) (hdiv.bind fun _ _ => agree_viaDouble)
  | acsch =>
    simp only [Unary.numeric, acsch, h.isZero_eq]
    exact agree_ite (agree_outsideDomain h _) (hdiv.bind fun _ _ => agree_viaDouble)
  | sqrt => exact agree_sqrt h
  | abs => exact agree_mapError_signal (agree_abs h)
  | fpart => exact agree_mapError_signal (agree_sub (by decide) h (h.toIntegral .down))
  | round =>
    exact (agree_liftM (agree_add (by decide) h (.refl half))).bind fun _ _ hr =>
      .ok (hr.toIntegral .floor)
  | ceil | floor => exact .ok (h.toIntegral _)
  | fac | sfac =>
    refine (agree_factorialArgument h).bind fun n _ hn => ?_
    rw [hn]
  | degToRad | degToGrad | radToDeg | radToGrad | gradToDeg | gradToRad => exact agree_rescale h

theorem agree_binary [Binary64.Library] (op : Binary) (ha : a.Alike a') (hb : b.Alike b') :
    AgreeValue (op.numeric a b) (op.numeric a' b') := by
  cases op with
  | power => exact agree_power ha hb
  | times => exact agree_mapError_signal (agree_mul ha hb)
  | div => exact agree_divide ha hb
  | modulo =>
    simp only [Binary.numeric, remainder, hb.isZero_eq]
    exact agree_ite (agreeValue_refl _) (agree_liftM (agree_rem (by decide) ha hb))
  | log => exact agree_log ha hb
  | plus => exact agree_mapError_signal (agree_add (by decide) ha hb)
  | minus => exact agree_mapError_signal (agree_sub (by decide) ha hb)
  | greater | less =>
    simp only [Binary.numeric, ha.less_eq hb, hb.less_eq ha]
    exact agreeValue_refl _
  | atLeast | atMost =>
    simp only [Binary.numeric, ha.atMost_eq hb, hb.atMost_eq ha]
    exact agreeValue_refl _
  | equal | unequal =>
    simp only [Binary.numeric, ha.same_eq hb]
    exact agreeValue_refl _
  | or | and =>
    simp only [Binary.numeric, ha.same_eq (.refl one), hb.same_eq (.refl one)]
    exact agreeValue_refl _

end Numeric

open Numeric

theorem Unary.agree_apply [Binary64.Library] (unit : AngleUnit) (op : Unary) {a a' : Decimal}
    (h : a.Alike a') :
    AgreeValue (op.apply unit a) (op.apply unit a') := by
  refine agree_mapError_within op.name ?_
  have hvalue : ∀ b b', b.Alike b' → AgreeValue
      (op.numeric b >>= fun r =>
        if op.isInverseTrigonometric then fromRadians unit r else pure r)
      (op.numeric b' >>= fun r =>
        if op.isInverseTrigonometric then fromRadians unit r else pure r) :=
    fun b b' hb => (agree_unary op hb).bind fun r r' hr =>
      agree_ite (agree_fromRadians unit hr) (.ok hr)
  exact agree_ite ((agree_toRadians unit h).bind hvalue) (hvalue a a' h)

theorem Binary.agree_apply [Binary64.Library] (op : Binary) {a a' b b' : Decimal} (ha : a.Alike a')
    (hb : b.Alike b') : AgreeValue (op.apply a b) (op.apply a' b') :=
  agree_mapError_within op.name (agree_binary op ha hb)

end Reckon
