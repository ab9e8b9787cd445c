import Reckon.Proofs.Failures
import Reckon.Proofs.Display

/-!
# Finite numbers

Decimal arithmetic keeps to finite numbers: only a power of zero is infinite, and only infinities
and what is no number lead to more of their kind.
-/

namespace Reckon

/-- Whatever number the computation returns is finite. -/
abbrev YieldsFinite {ε : Type} (r : Except ε Decimal) : Prop :=
  Yields (fun a => a.isFinite = true) r

@[simp] theorem yields_liftM {α : Type} {P : α → Prop} {r : Except Signal α} :
    Yields P (liftM r : Except Failure α) ↔ Yields P r :=
  yields_mapError

namespace Decimal
variable {ctx : Context} {a b : Decimal}

theorem yieldsFinite_round {negative : Bool} {c : Nat} {e : Int} :
    YieldsFinite (ctx.round negative c e) := by
  intro a h
  obtain ⟨c', e', rfl⟩ := round_eq_finite h
  rfl

theorem isFinite_flip (a : Decimal) : a.flip.isFinite = a.isFinite := by
  cases a <;> rfl

theorem isFinite_of_isIntegral (h : a.isIntegral = true) : a.isFinite = true := by
  cases a with
  | finite => rfl
  | infinite | nan => cases h

theorem isFinite_toIntegral (r : Rounding) (ha : a.isFinite = true) :
    (a.toIntegral r).isFinite = true := by
  cases a with
  | finite =>
    rw [toIntegral]
    split <;> rfl
  | infinite | nan => cases ha

theorem yieldsFinite_plus (ha : a.isFinite = true) : YieldsFinite (plus ctx a) := by
  cases a with
  | finite => exact yieldsFinite_round
  | infinite | nan => cases ha

theorem yieldsFinite_minus (ha : a.isFinite = true) : YieldsFinite (minus ctx a) :=
  yieldsFinite_plus ((isFinite_flip a).trans ha)

theorem yieldsFinite_abs (ha : a.isFinite = true) : YieldsFinite (abs ctx a) := by
  rw [abs]
  split
  · exact yieldsFinite_minus ha
  · exact yieldsFinite_plus ha

theorem yieldsFinite_add (ha : a.isFinite = true) (hb : b.isFinite = true) :
    YieldsFinite (add ctx a b) := by
  cases a with
  | infinite | nan => cases ha
  | finite =>
    cases b with
    | infinite | nan => cases hb
    | finite =>
      rw [add]
      split
      · exact yieldsFinite_round
      · exact yieldsFinite_round

theorem yieldsFinite_sub (ha : a.isFinite = true) (hb : b.isFinite = true) :
    YieldsFinite (sub ctx a b) :=
  yieldsFinite_add ha ((isFinite_flip b).trans hb)

theorem yieldsFinite_mul (ha : a.isFinite = true) (hb : b.isFinite = true) :
    YieldsFinite (mul ctx a b) := by
  cases a with
  | infinite | nan => cases ha
  | finite =>
    cases b with
    | infinite | nan => cases hb
    | finite => exact yieldsFinite_round

theorem yieldsFinite_div (ha : a.isFinite = true) (hb : b.isFinite = true) :
    YieldsFinite (div ctx a b) := by
  cases a with
  | infinite | nan => cases ha
  | finite =>
    cases b with
    | infinite | nan => cases hb
    | finite =>
      simp [div, divCoefficients, yieldsFinite_round]

theorem yieldsFinite_rem (ha : a.isFinite = true) (hb : b.isFinite = true) :
    YieldsFinite (rem ctx a b) := by
  cases a with
  | infinite | nan => cases ha
  | finite =>
    cases b with
    | infinite | nan => cases hb
    | finite => simp [rem, yieldsFinite_round]

theorem yieldsFinite_scale (ha : a.isFinite = true) (n : Int) :
    YieldsFinite (scale ctx a n) := by
  cases a with
  | infinite | nan => cases ha
  | finite => simp [scale, yieldsFinite_round]

theorem yieldsFinite_quantize (ha : a.isFinite = true) (target : Int) :
    YieldsFinite (quantize ctx a target) := by
  cases a with
  | infinite | nan => cases ha
  | finite => simp [quantize, yieldsFinite_round]

theorem yieldsFinite_powerBySquaring (ha : a.isFinite = true) (n : Nat) :
    YieldsFinite (powerBySquaring ctx a n) := by
  fun_induction powerBySquaring ctx a n with
  | case1 => exact yields_ok.mpr ha
  | case2 n hn ih =>
    refine ih.bind fun root hroot => (yieldsFinite_mul hroot hroot).bind fun square hsquare => ?_
    simp [yieldsFinite_mul hsquare ha, hsquare]

theorem yields_of_yieldsFinite {ε : Type} {r : Except ε Decimal} (h : YieldsFinite r) :
    Yields (· ≠ .nan) r := by
  rintro _ ha rfl
  cases h _ ha

/-- A power of a number is a number or an infinity. -/
theorem yields_power (ha : a.isFinite = true) (n : Int) : Yields (· ≠ .nan) (power ctx a n) := by
  cases a with
  | infinite | nan => cases ha
  | finite negative c e =>
    have hrounded {result : Except Signal Decimal} {f : Decimal → Except Signal Decimal}
        (h : YieldsFinite result) (hf : ∀ n c e, YieldsFinite (f (finite n c e))) :
        Yields (· ≠ .nan) (result >>= f) := by
      refine h.bind fun a ha => ?_
      cases a with
      | infinite | nan => cases ha
      | finite => exact yields_of_yieldsFinite (hf _ _ _)
    simp only [power]
    split
    · simp
    split
    · simp [one, ofNat]
    split
    · simp [powerOfUnit, apply_ite (· ≠ Decimal.nan)]
    split
    · rw [← bind_assoc]
      refine hrounded ?_ fun _ _ _ => yieldsFinite_round
      exact (yieldsFinite_div rfl rfl).bind fun b hb => yieldsFinite_powerBySquaring hb _
    · exact hrounded (yieldsFinite_powerBySquaring rfl _) fun _ _ _ => yieldsFinite_round

end Decimal

/-- No number of the tree is infinite or undefined. -/
def Tree.hasFiniteNumbers : Tree → Bool
  | number a => a.isFinite
  | var _ => true
  | unary _ a => a.hasFiniteNumbers
  | binary _ a b => a.hasFiniteNumbers && b.hasFiniteNumbers

end Reckon
