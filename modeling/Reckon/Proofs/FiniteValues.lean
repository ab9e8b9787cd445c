import Reckon.Proofs.FiniteNumbers

/-!
# Operators on finite numbers

The value of an operator at finite numbers is a finite number, however the functions of doubles are
computed (`Unary.yieldsFinite_apply`, `Binary.yieldsFinite_apply`), and there is one unless the
operands are at fault (`Unary.failsOnly_apply_of_isFinite`).
-/

namespace Reckon

open Decimal

namespace Numeric
variable {op : String} {a b c : Decimal}

theorem isFinite_truth (b : Bool) : (truth b).isFinite = true := by
  cases b <;> rfl

/-! ### Through doubles -/

theorem yieldsFinite_widen {x : Binary64} : YieldsFinite (widen op x) := by
  cases x with
  | finite negative m e =>
    refine yields_ok.mpr ?_
    simp only [Binary64.toDecimal]
    split
    · rfl
    · split <;> rfl
  | infinite | nan => exact yields_error _

theorem yieldsFinite_viaDouble [Binary64.Library] {f : Binary64.Elementary} :
    YieldsFinite (viaDouble f op a) := by
  rw [viaDouble]
  split
  · exact yieldsFinite_widen
  · exact yields_error _
  · exact yields_error _

theorem yieldsFinite_divide (ha : a.isFinite = true) (hb : b.isFinite = true) :
    YieldsFinite (divide op a b) :=
  yields_guarded <| yields_liftM.mpr (yieldsFinite_div ha hb)

theorem yieldsFinite_reciprocal (ha : a.isFinite = true) : YieldsFinite (reciprocal op a) :=
  yieldsFinite_divide rfl ha

theorem yieldsFinite_inverseOfReciprocal [Binary64.Library] {f : Binary64.Elementary} :
    YieldsFinite (inverseOfReciprocal f op a) :=
  yields_bind fun _ => yields_bind fun _ => yieldsFinite_viaDouble

theorem yieldsFinite_rescale (ha : a.isFinite = true) (hb : b.isFinite = true)
    (hc : c.isFinite = true) : YieldsFinite (rescale b c a) :=
  (yields_liftM.mpr (yieldsFinite_mul ha hb)).bind fun _ h =>
    yields_mapError.mpr (yieldsFinite_div h hc)

theorem yieldsFinite_toRadians (unit : AngleUnit) (ha : a.isFinite = true) :
    YieldsFinite (toRadians unit a) := by
  cases unit with
  | rad => exact yields_ok.mpr ha
  | deg | grad => exact yieldsFinite_rescale ha rfl rfl

theorem yieldsFinite_fromRadians (unit : AngleUnit) (ha : a.isFinite = true) :
    YieldsFinite (fromRadians unit a) := by
  cases unit with
  | rad => exact yields_ok.mpr ha
  | deg | grad => exact yieldsFinite_rescale ha rfl rfl

/-! ### Powers and roots -/

theorem yieldsFinite_power [Binary64.Library] (ha : a.isFinite = true) :
    YieldsFinite (power a b) := by
  rw [power]
  refine yields_ite.mpr ⟨fun _ => yields_ok.mpr rfl, fun _ => yields_bind fun undefined => ?_⟩
  refine yields_guarded <| yields_bind fun small => ?_
  refine yields_ite.mpr ⟨fun _ => ?_, fun _ => ?_⟩
  · refine (yields_liftM.mpr (yields_power ha _)).bind fun r hr => ?_
    cases r with
    | finite => exact yields_ok.mpr rfl
    | infinite => exact yields_error _
    | nan => exact absurd rfl hr
  · split
    · exact yieldsFinite_widen
    · exact yields_error _
    · exact yields_error _

theorem yieldsFinite_improve (ha : a.isFinite = true) (hb : b.isFinite = true) :
    YieldsFinite (improve a b) := by
  refine (yieldsFinite_div ha hb).bind fun _ h => (yieldsFinite_quantize h _).bind fun _ h => ?_
  refine (yieldsFinite_add h hb).bind fun _ h => (yieldsFinite_div h rfl).bind fun _ h => ?_
  exact yieldsFinite_quantize h _

theorem yieldsFinite_newton (ha : a.isFinite = true) (steps : Nat) (hb : b.isFinite = true) :
    YieldsFinite (newton a steps b) := by
  induction steps generalizing b with
  | zero => exact yields_ok.mpr hb
  | succ steps ih =>
    rw [newton]
    refine (yieldsFinite_improve ha hb).bind fun next hnext => yields_bind fun square =>
      yields_bind fun error => ?_
    refine yields_ite.mpr ⟨fun _ => yields_bind fun magnitude => yields_bind fun small => ?_,
      fun _ => ih hnext⟩
    exact yields_ite.mpr ⟨fun _ => yields_ok.mpr hnext, fun _ => ih hnext⟩

theorem exists_firstGuess (ha : a.isFinite = true) :
    ∃ guess, firstGuess a = .ok guess ∧ guess.isFinite = true := by
  cases a with
  | finite => exact ⟨_, rfl, rfl⟩
  | infinite | nan => cases ha

theorem yieldsFinite_sqrt (ha : a.isFinite = true) : YieldsFinite (sqrt a) := by
  rw [sqrt]
  refine yields_bind fun _ => yields_guarded ?_
  refine yields_ite.mpr ⟨fun _ => yields_ok.mpr rfl, fun _ => ?_⟩
  refine (yields_liftM.mpr (yieldsFinite_scale ha _)).bind fun mantissa hmantissa => ?_
  obtain ⟨guess, hguess, hfinite⟩ := exists_firstGuess hmantissa
  rw [hguess]
  refine (yields_liftM.mpr (yieldsFinite_newton hmantissa _ hfinite)).bind fun root hroot => ?_
  refine (yields_liftM.mpr (yieldsFinite_scale hroot _)).bind fun r hr => ?_
  exact yields_liftM.mpr (yieldsFinite_plus hr)

/-! ### Operators -/

/-- What is left of one. -/
theorem yieldsFinite_oneMinus {ctx : Context} {r : Except Failure Decimal} (h : YieldsFinite r) :
    YieldsFinite (r >>= fun c => liftM (sub ctx one c)) :=
  h.bind fun _ hc => yields_liftM.mpr (yieldsFinite_sub rfl hc)

theorem yieldsFinite_unary [Binary64.Library] (op : Unary) (ha : a.isFinite = true) :
    YieldsFinite (op.numeric a) := by
  cases op with
  | not => exact yields_ok.mpr (isFinite_truth _)
  | sin | cos | tan | sinh | cosh | tanh | asinh | atan | exp => exact yieldsFinite_viaDouble
  | cotan | sec | csc | cotanh | sech | csch =>
    exact yieldsFinite_viaDouble.bind fun _ => yieldsFinite_reciprocal
  | exsec =>
    have hsec : YieldsFinite (sec a) := yieldsFinite_viaDouble.bind fun _ => yieldsFinite_reciprocal
    exact hsec.bind fun _ hc => yields_liftM.mpr (yieldsFinite_sub hc rfl)
  | vers | covers => exact yieldsFinite_oneMinus yieldsFinite_viaDouble
  | hav =>
    have hvers : YieldsFinite (vers a) := yieldsFinite_oneMinus yieldsFinite_viaDouble
    exact hvers.bind fun _ hc => yields_liftM.mpr (yieldsFinite_mul rfl hc)
  | sinc =>
    refine yields_ite.mpr ⟨fun _ => yields_ok.mpr rfl, fun _ => ?_⟩
    exact yieldsFinite_viaDouble.bind fun _ hs => yieldsFinite_divide hs ha
  | asin | acos => exact yields_bind fun _ => yieldsFinite_viaDouble
  | acotan =>
    refine yields_ite.mpr ⟨fun _ => yields_liftM.mpr (yieldsFinite_div rfl rfl), fun _ => ?_⟩
    exact yields_bind fun _ => yieldsFinite_viaDouble
  | asec | acsc => exact yields_bind fun _ => yieldsFinite_inverseOfReciprocal
  | aexsec => exact yields_bind fun _ => yields_bind fun _ => yieldsFinite_inverseOfReciprocal
  | avers | acovers =>
    exact yields_bind fun _ => yields_bind fun _ => yields_bind fun _ => yieldsFinite_viaDouble
  | ahav =>
    exact yields_bind fun _ => yields_bind fun _ => yields_bind fun _ => yields_bind fun _ =>
      yieldsFinite_viaDouble
  | acosh | ln => exact yields_bind fun _ => yields_guarded yieldsFinite_viaDouble
  | atanh =>
    exact yields_bind fun _ => yields_bind fun _ => yields_guarded yieldsFinite_viaDouble
  | acoth | asech =>
    exact yields_bind fun _ => yields_bind fun _ => yields_guarded <|
      yields_bind fun _ => yieldsFinite_viaDouble
  | acsch => exact yields_guarded <| yields_bind fun _ => yieldsFinite_viaDouble
  | sqrt => exact yieldsFinite_sqrt ha
  | abs => exact yields_mapError.mpr (yieldsFinite_abs ha)
  | fpart => exact yields_mapError.mpr (yieldsFinite_sub ha (isFinite_toIntegral _ ha))
  | round =>
    refine (yields_liftM.mpr (yieldsFinite_add ha rfl)).bind fun r hr => ?_
    exact yields_ok.mpr (isFinite_toIntegral _ hr)
  | ceil | floor => exact yields_ok.mpr (isFinite_toIntegral _ ha)
  | fac | sfac => exact yields_bind fun _ => yields_ok.mpr rfl
  | degToRad | degToGrad | radToDeg | radToGrad | gradToDeg | gradToRad =>
    exact yieldsFinite_rescale ha rfl rfl

theorem yieldsFinite_ln [Binary64.Library] : YieldsFinite (ln a) :=
  yields_bind fun _ => yields_guarded yieldsFinite_viaDouble

theorem yieldsFinite_log [Binary64.Library] : YieldsFinite (log a b) :=
  yields_bind fun _ => yields_guarded <| yields_bind fun _ => yields_guarded <|
    yieldsFinite_ln.bind fun _ hx => yieldsFinite_ln.bind fun _ hy => yieldsFinite_divide hx hy

theorem yieldsFinite_binary [Binary64.Library] (op : Binary) (ha : a.isFinite = true)
    (hb : b.isFinite = true) :
    YieldsFinite (op.numeric a b) := by
  cases op with
  | power => exact yieldsFinite_power ha
  | times => exact yields_mapError.mpr (yieldsFinite_mul ha hb)
  | div => exact yieldsFinite_divide ha hb
  | modulo => exact yields_guarded <| yields_liftM.mpr (yieldsFinite_rem ha hb)
  | log => exact yieldsFinite_log
  | plus => exact yields_mapError.mpr (yieldsFinite_add ha hb)
  | minus => exact yields_mapError.mpr (yieldsFinite_sub ha hb)
  | greater | less | atLeast | atMost =>
    exact yields_bind fun _ => yields_ok.mpr (isFinite_truth _)
  | equal | unequal | or | and => exact yields_ok.mpr (isFinite_truth _)

/-- A finite number does not meet the one failure that only infinities have. -/
theorem failsOnly_sqrt_of_isFinite (ha : a.isFinite = true) :
    FailsOnly Failure.IsArithmetic (sqrt a) := by
  have hscale : YieldsFinite (liftM (scale rootContext a (-2 * (a.leadingExponent / 2))) :
      Except Failure Decimal) := yields_liftM.mpr (yieldsFinite_scale ha _)
  have hguess : ∀ b, b.isFinite = true → FailsOnly Failure.IsArithmetic (firstGuess b) := by
    intro b hb
    obtain ⟨guess, hguess, -⟩ := exists_firstGuess hb
    rw [hguess]
    exact failsOnly_ok guess
  simp only [sqrt, failsOnly_bind, failsOnly_ite, failsOnly_liftM, failsOnly_pure,
    failsOnly_outsideDomain, true_and, implies_true]
  intro _ _ _ _ mantissa hmantissa
  exact ⟨hguess mantissa (hscale mantissa hmantissa), trivial⟩

theorem failsOnly_unary_of_isFinite [Binary64.Library] (op : Unary) (ha : a.isFinite = true) :
    FailsOnly Failure.IsArithmetic (op.numeric a) := by
  by_cases hop : op = .sqrt
  · subst hop
    exact failsOnly_sqrt_of_isFinite ha
  · exact failsOnly_unary_of_ne_sqrt hop a

end Numeric

open Numeric

theorem Unary.yieldsFinite_apply [Binary64.Library] (unit : AngleUnit) (op : Unary) {a : Decimal}
    (ha : a.isFinite = true) : YieldsFinite (op.apply unit a) := by
  refine yields_mapError.mpr ?_
  have hvalue : ∀ b, b.isFinite = true → YieldsFinite (op.numeric b >>= fun r =>
      if op.isInverseTrigonometric then fromRadians unit r else pure r) := fun b hb =>
    (yieldsFinite_unary op hb).bind fun r hr =>
      yields_ite.mpr ⟨fun _ => yieldsFinite_fromRadians unit hr, fun _ => yields_pure.mpr hr⟩
  exact yields_ite.mpr
    ⟨fun _ => (yieldsFinite_toRadians unit ha).bind hvalue, fun _ => hvalue a ha⟩

theorem Binary.yieldsFinite_apply [Binary64.Library] (op : Binary) {a b : Decimal}
    (ha : a.isFinite = true) (hb : b.isFinite = true) : YieldsFinite (op.apply a b) :=
  yields_mapError.mpr (yieldsFinite_binary op ha hb)

end Reckon
