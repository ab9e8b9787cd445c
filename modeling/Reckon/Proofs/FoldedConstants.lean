import Reckon.Proofs.DecimalOrder
import Reckon.Proofs.ExactRoundings
import Reckon.Proofs.FittingValues
import Reckon.Proofs.PowersOfTen
import Reckon.Proofs.Unlimited

/-!
# Folded constants

The simplifier computes sums, differences and products of numbers as the evaluator does, and keeps
quotients and powers that are integers. `Foldable` says when the evaluator comes to the number that
is kept: quotients are folded with more digits than the evaluator gives them, and powers of one and
powers with exponent one are folded without a look at the other number.
-/

namespace Reckon

open Decimal (FitsIn signed)
open Numeric (ComesTo)
open Simplify (Computation IntegerComputation Plan Arithmetic)
open Reckon.Tree (number unary binary)

namespace Decimal
variable {a c : Decimal} {q : ℚ}

/-- A number that fits is kept as it is. -/
theorem toRat?_of_plus (ha : a.toRat? = some q) (hfits : a.FitsIn .working)
    (h : plus .working a = .ok c) : c.toRat? = some q := by
  rw [(rounds_plus (by decide) ha).toRat?_eq h, (hfits q ha).fit_eq]

end Decimal

/-! ### What is folded -/

namespace Simplify
variable {a b c v : Decimal} {answer : Combine}

/-- Two numbers are simplified by one rule. -/
theorem exists_combine_numbers (op : Binary) (a b : Decimal) :
    ∃ below : Combine, combine op (number a) (number b) =
      (rule op (number a) (number b)).follow (Arithmetic.working.answer below) := by
  have hpos : 0 < ruleBound (number a) (number b) := by
    unfold ruleBound
    positivity
  obtain ⟨k, hk⟩ := Nat.exists_eq_add_one.mpr hpos
  exact ⟨combineWithin .working k, by rw [combine, combineBy, hk, combineWithin]⟩

theorem follow_kept_eq_ok_iff :
    (kept v).follow (Arithmetic.working.answer answer) = .ok (number c) ↔
      Decimal.plus .working v = .ok c := by
  change (_ >>= fun c => Except.ok (number c)) = _ ↔ _
  simp only [bind_eq_ok_iff, Except.ok.injEq, Tree.number.injEq, exists_eq_right]
  exact mapError_eq_ok_iff

theorem follow_rounded_eq_ok_iff {comp : Computation} :
    (rounded comp).follow (Arithmetic.working.answer answer) = .ok (number c) ↔
      ∃ v, comp.result = .ok v ∧ Decimal.plus .working v = .ok c := by
  change (_ >>= fun v => (kept v).follow (Arithmetic.working.answer answer)) = _ ↔ _
  simp only [bind_eq_ok_iff, follow_kept_eq_ok_iff]
  exact exists_congr fun v => and_congr_left fun _ => mapError_eq_ok_iff

theorem eq_of_ifIntegral (h : IntegerComputation.ifIntegral a = some v) :
    a = v ∧ v.isIntegral = true := by
  rw [IntegerComputation.ifIntegral] at h
  split at h
  · rename_i hint
    obtain rfl := Option.some_inj.mp h
    exact ⟨rfl, hint⟩
  · cases h

/-- A number that is kept when it is an integer. -/
theorem exists_of_follow_integer {comp : IntegerComputation} {t : Tree} (ht : t ≠ number c)
    (h : (Plan.integer comp >>= fun
      | some v => kept v
      | none => pure t).follow (Arithmetic.working.answer answer) = .ok (number c)) :
    ∃ v, comp.result = .ok (some v) ∧ Decimal.plus .working v = .ok c := by
  change (_ >>= fun v : Option Decimal => Plan.follow (Arithmetic.working.answer answer) _) = _ at h
  obtain ⟨v, hv, hc⟩ := bind_eq_ok_iff.mp h
  cases v with
  | none => exact absurd (Except.ok.inj hc) ht
  | some v => exact ⟨v, hv, follow_kept_eq_ok_iff.mp hc⟩

/-- A sum, difference or product of numbers is rounded, and that is kept. -/
theorem combine_rounded {op : Binary} {comp : Computation}
    (hrule : rule op (number a) (number b) = rounded comp)
    (h : combine op (number a) (number b) = .ok (number c)) :
    ∃ v, comp.result = .ok v ∧ Decimal.plus .working v = .ok c := by
  obtain ⟨below, hbelow⟩ := exists_combine_numbers op a b
  rw [hbelow, hrule] at h
  exact follow_rounded_eq_ok_iff.mp h

theorem combine_quotient (h : combine .div (number a) (number b) = .ok (number c)) :
    b.isZero = false ∧ ∃ v, Decimal.div .working a b = .ok v ∧ Decimal.plus .working v = .ok c := by
  obtain ⟨below, hbelow⟩ := exists_combine_numbers .div a b
  rw [hbelow, rule, quotient, quotientOfNumbers] at h
  cases hb : b.isZero with
  | true =>
    rw [hb, if_pos rfl] at h
    cases h
  | false =>
    rw [hb, if_neg Bool.false_ne_true] at h
    refine ⟨rfl, ?_⟩
    obtain ⟨v, hv, hc⟩ := exists_of_follow_integer (by simp) h
    rw [IntegerComputation.result] at hv
    obtain ⟨w, hw, hv⟩ := bind_eq_ok_iff.mp hv
    obtain ⟨rfl, -⟩ := eq_of_ifIntegral (Except.ok.inj hv)
    exact ⟨w, mapError_eq_ok_iff.mp hw, hc⟩

/-- What powers of numbers are folded to, in the order in which the rules are tried. -/
inductive PowerFolds (a b : Decimal) : Decimal → Prop where
  | one (h : a.same .one = true ∨ b.isZero = true) : PowerFolds a b .one
  | base (ha : a.same .one = false) (hb : b.isZero = false) (h : b.same .one = true) :
      PowerFolds a b a
  | value {c v : Decimal} (ha : a.same .one = false) (hb : b.same .one = false)
      (hv : Numeric.power a b = .ok v) (hint : v.isIntegral = true)
      (hc : Decimal.plus .working v = .ok c) : PowerFolds a b c

theorem combine_power (h : combine .power (number a) (number b) = .ok (number c)) :
    PowerFolds a b c := by
  obtain ⟨below, hbelow⟩ := exists_combine_numbers .power a b
  rw [hbelow, rule, power] at h
  split at h
  · rename_i hone
    obtain rfl : Decimal.one = c := Tree.number.inj (Except.ok.inj h)
    exact .one (by simpa [Tree.isOne, Tree.isZero, Decimal.isZero] using hone)
  rename_i hone
  simp only [Tree.isOne, Tree.isZero, Bool.or_eq_true, not_or, Bool.not_eq_true] at hone
  split at h
  · rename_i hb
    obtain rfl : a = c := Tree.number.inj (Except.ok.inj h)
    exact .base hone.1 hone.2 hb
  rename_i hb
  obtain ⟨v, hv, hc⟩ := exists_of_follow_integer (by simp) h
  rw [IntegerComputation.result] at hv
  split at hv
  · rename_i w hw
    obtain ⟨rfl, hint⟩ := eq_of_ifIntegral (Except.ok.inj hv)
    exact .value hone.1 (Bool.not_eq_true _ ▸ hb) hw hint hc
  · cases hv
  · cases hv

theorem apply_sqrt (h : apply .sqrt (number a) = .ok (number c)) :
    ∃ v, Numeric.sqrt a = .ok v ∧ v.isIntegral = true ∧ Decimal.plus .working v = .ok c := by
  rw [apply, unaryRule, sqrt, Plan.run, Plan.bind_eq, Plan.follow_bind] at h
  obtain ⟨b, -, h⟩ := bind_eq_ok_iff.mp h
  cases b with
  | false => cases h
  | true =>
    obtain ⟨r, hr, h⟩ := (bind_eq_ok_iff (x := (IntegerComputation.root a).result)).mp h
    cases r with
    | none => cases h
    | some v =>
      obtain ⟨w, hw, hv⟩ := bind_eq_ok_iff.mp hr
      obtain ⟨rfl, hint⟩ := eq_of_ifIntegral (Except.ok.inj hv)
      exact ⟨w, hw, hint, follow_kept_eq_ok_iff.mp h⟩

end Simplify

/-! ### Powers of one and with exponent one -/

namespace Decimal
variable {ctx : Context} {a : Decimal} {p : ℚ}

theorem alike_one (ha : a.toRat? = some 1) : a.Alike one := by
  cases a with
  | infinite | nan => cases ha
  | finite negative c e =>
    rw [toRat?_finite, Option.some_inj] at ha
    cases negative with
    | false => exact ⟨rfl, by rw [Nat.cast_one, zpow_zero, mul_one]; exact ha⟩
    | true =>
      have hnonneg : (0 : ℚ) ≤ c * 10 ^ e := mul_nonneg (Nat.cast_nonneg c) (ten_zpow_pos e).le
      rw [signed_true] at ha
      push_cast at ha
      linarith

theorem toRat?_power_one (n : Int) :
    ∃ v, power ctx one n = .ok v ∧ v.toRat? = some 1 := by
  have hone : compareMagnitude 1 0 1 0 = .eq := rfl
  simp only [power, one, ofNat, one_ne_zero, hone, ↓reduceIte]
  split
  · exact ⟨_, rfl, toRat?_one⟩
  · exact ⟨_, rfl, by rw [toRat?_powerOfUnit]; simp [signed]⟩

/-- The first power is the number rounded. -/
theorem rounds_power_one (hctx : 0 < ctx.digits) (htiny : ctx.tiny ≤ 0) (ha : a.toRat? = some p) :
    ctx.Rounds p (power ctx a 1) := by
  cases a with
  | infinite | nan => cases ha
  | finite negative c e =>
    rw [toRat?_finite, Option.some_inj] at ha
    have hodd : (negative && decide ((1 : ℤ) % 2 = 1)) = negative := by simp
    simp only [power, one_ne_zero, not_lt.mpr zero_le_one, hodd, ↓reduceIte]
    split
    · rename_i hc
      have hp : p = 0 := by rw [← ha, hc]; cases negative <;> simp [signed]
      refine Context.Holds.rounds ⟨hp ▸ ctx.fits_zero, ?_⟩ ?_
      · rw [hp, abs_zero]
        exact ten_zpow_pos _
      · rw [hp, toRat?_finite]
        cases negative <;> simp [signed]
    split
    · rename_i hone
      have hp : p = (signed negative 1 : ℤ) := by
        have hsize := mul_zpow_eq_of_compareMagnitude hone
        rw [Nat.cast_one, zpow_zero, mul_one] at hsize
        rw [← ha]
        cases negative <;> simp [signed, hsize]
      refine Context.Holds.rounds ⟨hp ▸ fits_signed_one hctx htiny negative, ?_⟩ ?_
      · have habs : |p| = 1 := by rw [hp]; cases negative <;> simp [signed]
        rw [habs]
        exact one_lt_zpow₀ (by norm_num) (by decide)
      · rw [toRat?_powerOfUnit, hp]
    · rw [powerBySquaring, if_pos (by decide), ← ha]
      exact Context.rounds_round hctx negative c e

end Decimal

namespace Numeric
variable {r r' : Except Failure Decimal} {a b : Decimal} {p q s : ℚ}

theorem comesTo_iff_of_agree (hr : AgreeValue r r') : ComesTo r s ↔ ComesTo r' s := by
  cases hr with
  | error h => exact iff_of_false (by rintro ⟨v, ⟨⟩, -⟩) (by rintro ⟨v, ⟨⟩, -⟩)
  | ok h =>
    constructor
    · rintro ⟨v, ⟨⟩, hv⟩
      exact ⟨_, rfl, h.toRat?_eq.symm.trans hv⟩
    · rintro ⟨v, ⟨⟩, hv⟩
      exact ⟨_, rfl, h.toRat?_eq.trans hv⟩

/-- What a power with an integer exponent comes to, if it is a number. -/
theorem comesTo_bind_iff {x : Except Signal Decimal} :
    ComesTo ((x : Except Failure Decimal) >>= fun
      | .infinite _ => tooLarge "^"
      | v => .ok v) s ↔ ∃ v, x = .ok v ∧ v.toRat? = some s := by
  cases x with
  | error e => exact iff_of_false (by rintro ⟨v, ⟨⟩, -⟩) (by rintro ⟨v, ⟨⟩, -⟩)
  | ok v =>
    cases v with
    | infinite negative =>
      refine iff_of_false (by rintro ⟨v, ⟨⟩, -⟩) ?_
      rintro ⟨v, ⟨⟩, ⟨⟩⟩
    | finite negative c e =>
      constructor
      · rintro ⟨v, ⟨⟩, hv⟩
        exact ⟨_, rfl, hv⟩
      · rintro ⟨v, ⟨⟩, hv⟩
        exact ⟨_, rfl, hv⟩
    | nan =>
      constructor
      · rintro ⟨v, ⟨⟩, ⟨⟩⟩
      · rintro ⟨v, ⟨⟩, ⟨⟩⟩

/-- A power with exponent one is the number rounded. -/
theorem comesTo_power_one (ha : a.toRat? = some p) (hb : b.toRat? = some 1) :
    ComesTo (power a b) p ↔ Context.working.Holds p := by
  have hsign : power.isNegativePowerOfZero a .one = .ok false := by
    rw [power.isNegativePowerOfZero]
    split <;> rfl
  have hpower : power a .one =
      ((Decimal.power .working a 1 : Except Signal Decimal) : Except Failure Decimal) >>= fun
        | .infinite _ => tooLarge "^"
        | v => .ok v := by
    rw [power, hsign, Decimal.one, Decimal.ofNat, isSmallInteger_natural false (by decide)]
    rfl
  rw [comesTo_iff_of_agree (agree_power (.refl a) (Decimal.alike_one hb)), hpower,
    ← (Decimal.rounds_power_one (by decide) (by decide) ha).exists_self_iff (by decide)]
  exact comesTo_bind_iff

/-- Whether an exponent is a small integer is found out, unless it is an integer whose absolute
value is no number. -/
theorem exists_isSmallInteger_iff (hb : b.toRat? = some q) :
    (∃ small, power.isSmallInteger b = .ok small) ↔
      ((∃ k : ℤ, q = k) → Context.plain.fit |q| < 10 ^ (Context.maxExponent + 1)) := by
  rw [power.isSmallInteger]
  cases hint : b.isIntegral with
  | false =>
    refine iff_of_true ⟨false, rfl⟩ ?_
    rintro ⟨k, rfl⟩
    rw [Decimal.isIntegral_of_toRat? (k := 0) (by rw [hb, zpow_zero, mul_one]) le_rfl] at hint
    cases hint
  | true =>
    have hinteger : ∃ k : ℤ, q = k := by
      obtain ⟨k, hk⟩ := Decimal.exists_of_isIntegral hint
      exact ⟨k, Option.some_inj.mp (hb.symm.trans hk)⟩
    have hrounds : Context.plain.Rounds |q| (Decimal.abs .plain b) :=
      Decimal.rounds_abs (by decide) hb
    rw [forall_prop_of_true hinteger]
    constructor
    · rintro ⟨small, hsmall⟩
      obtain ⟨v, hv, -⟩ := bind_eq_ok_iff.mp hsmall
      exact (le_abs_self _).trans_lt (hrounds.abs_fit_lt (mapError_eq_ok_iff.mp hv))
    · intro hlt
      rw [Context.Rounds, if_pos] at hrounds
      · obtain ⟨v, hv, hvalue⟩ := hrounds
        have hmost := Decimal.atMost_eq_decide hvalue (Decimal.toRat?_ofNat maxExactExponent)
        rw [hv]
        exact ⟨_, mapError_eq_ok_iff.mpr hmost⟩
      · rwa [abs_of_nonneg (Context.fit_nonneg (abs_nonneg q))]

/-- Every power of one of doubles is one. -/
theorem binary64Power_one (x : Binary64) : Binary64.power .one x = .ok .one := by
  have hcompare : Binary64.compareOne (twoTo 52) (-52) = .eq := by decide +kernel
  have hne : twoTo 52 ≠ 0 := (Binary64.twoTo_pos 52).ne'
  cases x with
  | nan => rfl
  | infinite inverse => simp only [Binary64.power, Binary64.one, hcompare, hne, ↓reduceIte]
  | finite inverse n f =>
    simp only [Binary64.power, Binary64.one, hne, Binary64.powerPositive, hcompare,
      Bool.false_and, Bool.false_eq_true, ↓reduceIte]
    split <;> rfl

/-- Powers of one are one, if the absolute value of an exponent that is an integer is a number. -/
theorem comesTo_one_power (ha : a.toRat? = some 1) (hb : b.toRat? = some q) :
    ComesTo (power a b) 1 ↔
      ((∃ k : ℤ, q = k) → Context.plain.fit |q| < 10 ^ (Context.maxExponent + 1)) := by
  have hdouble : Binary64.Library.power (.ofDecimal .one) (.ofDecimal b) = .ok .one := by
    rw [show Binary64.ofDecimal .one = .one by decide +kernel]
    exact binary64Power_one _
  have hwiden : widen "^" .one = .ok (.finite false 10 (-1)) := by decide +kernel
  have hsign : power.isNegativePowerOfZero .one b = .ok false := rfl
  rw [comesTo_iff_of_agree (agree_power (Decimal.alike_one ha) (.refl b)),
    ← exists_isSmallInteger_iff hb, power]
  split
  · rename_i hzero
    have hinteger := (Decimal.same_eq_true_iff hb Decimal.toRat?_zero).mp hzero
    refine iff_of_true ⟨.one, rfl, Decimal.toRat?_one⟩ ((exists_isSmallInteger_iff hb).mpr ?_)
    intro _
    rw [hinteger, abs_zero, Context.plain.fits_zero.fit_eq]
    exact ten_zpow_pos _
  constructor
  · rintro ⟨v, hv, -⟩
    obtain ⟨negative, hnegative, hv⟩ := bind_eq_ok_iff.mp hv
    obtain rfl := Except.ok.inj (hsign.symm.trans hnegative)
    rw [if_neg Bool.false_ne_true] at hv
    obtain ⟨small, hsmall, -⟩ := bind_eq_ok_iff.mp hv
    exact ⟨small, hsmall⟩
  · rintro ⟨small, hsmall⟩
    rw [hsign, hsmall, hdouble]
    cases small with
    | true => exact comesTo_bind_iff.mpr (Decimal.toRat?_power_one (toInt b))
    | false =>
      refine ⟨.finite false 10 (-1), hwiden, ?_⟩
      rw [Decimal.toRat?_finite]
      norm_num [signed]

end Numeric

/-! ### Agreement -/

namespace Simplify
variable {op : Binary} {a b c v : Decimal} {p q r : ℚ} {x : Except Signal Decimal}

/-- Where the evaluator comes to the number `r` that numbers `p` and `q` are folded to: a quotient
has no more digits than quotients are given; a number to the power of one needs no rounding; and
the absolute value of an integer that one is raised to is a number. -/
def Foldable (op : Binary) (p q r : ℚ) : Prop :=
  match op with
  | .div => Context.quotient.Fits r
  | .power =>
    (q = 1 → Context.working.Holds p) ∧
      (p = 1 → (∃ k : ℤ, q = k) → Context.plain.fit |q| < 10 ^ (Context.maxExponent + 1))
  | _ => True

/-- A rounded number is kept as it is. -/
theorem toRat?_kept_of_rounds (hx : Context.working.Rounds q x) (hv : x = .ok v)
    (hc : Decimal.plus .working v = .ok c) : c.toRat? = some (Context.working.fit q) :=
  Decimal.toRat?_of_plus (hx.toRat?_eq hv)
    (Decimal.fitsIn_of_toRat? (hx.toRat?_eq hv) (Context.fits_fit (by decide) q)) hc

/-- Sums, differences and products are what the evaluator comes to. -/
theorem exists_comesTo_of_rounds {y : Except Failure Decimal}
    (hx : Context.working.Rounds q x) (hy : x.mapError .signal = y)
    (h : ∃ v, x = .ok v ∧ Decimal.plus .working v = .ok c) :
    ∃ r, c.toRat? = some r ∧ ComesTo y r := by
  obtain ⟨v, hv, hc⟩ := h
  refine ⟨_, toRat?_kept_of_rounds hx hv hc, v, ?_, hx.toRat?_eq hv⟩
  rw [← hy, hv]
  rfl

theorem comesTo_quotient_iff (ha : a.toRat? = some p) (hb : b.toRat? = some q)
    (h : combine .div (number a) (number b) = .ok (number c)) :
    ∃ r, c.toRat? = some r ∧
      (ComesTo (Numeric.divide "/" a b) r ↔ Context.quotient.Fits r) := by
  obtain ⟨hzero, v, hv, hc⟩ := combine_quotient h
  have hq : q ≠ 0 := by
    rintro rfl
    rw [Decimal.isZero_of_toRat? hb] at hzero
    cases hzero
  have hwide : Context.working.Rounds (p / q) _ := Decimal.rounds_div (by decide) ha hb hq
  have hnarrow : Context.quotient.Rounds (p / q) _ := Decimal.rounds_div (by decide) ha hb hq
  have hvalue := toRat?_kept_of_rounds hwide hv hc
  refine ⟨_, hvalue, ?_⟩
  have hdivide : ComesTo (Numeric.divide "/" a b) (Context.working.fit (p / q)) ↔
      ∃ w, Decimal.div .quotient a b = .ok w ∧ w.toRat? = some (Context.working.fit (p / q)) := by
    rw [Numeric.divide, hzero, if_neg Bool.false_ne_true]
    exact exists_congr fun w => and_congr_left fun _ => mapError_eq_ok_iff
  rw [hdivide, hnarrow.exists_iff]
  constructor
  · rintro ⟨hfit, -⟩
    exact hfit ▸ Context.fits_fit (by decide) _
  · intro hfits
    have hfit := Context.fit_eq_of_fits_fit (by decide) (by decide) (.inl rfl) (.inl rfl) hfits
    exact ⟨hfit, hfit ▸ hwide.abs_fit_lt hv⟩

theorem comesTo_power_iff (ha : a.toRat? = some p) (hb : b.toRat? = some q)
    (h : combine .power (number a) (number b) = .ok (number c)) :
    ∃ r, c.toRat? = some r ∧ (ComesTo (Numeric.power a b) r ↔ Foldable .power p q r) := by
  have hp := Decimal.same_eq_true_iff ha Decimal.toRat?_one
  have hq := Decimal.same_eq_true_iff hb Decimal.toRat?_one
  cases combine_power h with
  | one hone =>
    refine ⟨1, Decimal.toRat?_one, ?_⟩
    by_cases hp1 : p = 1
    · subst hp1
      have hholds : Context.working.Holds 1 :=
        ⟨Decimal.fitsIn_one (by decide) (by decide) 1 Decimal.toRat?_one, by
          rw [abs_one]
          exact one_lt_zpow₀ (by norm_num) (by decide)⟩
      rw [Numeric.comesTo_one_power ha hb, Foldable, forall_prop_of_true rfl]
      exact (and_iff_right fun _ => hholds).symm
    · have hzero : b.isZero = true := hone.resolve_left (mt hp.mp hp1)
      have hq0 := (Decimal.same_eq_true_iff hb Decimal.toRat?_zero).mp hzero
      refine iff_of_true ⟨.one, ?_, Decimal.toRat?_one⟩ ⟨fun hq1 => ?_, fun h => absurd h hp1⟩
      · rw [Numeric.power, if_pos hzero]
        rfl
      · rw [hq0] at hq1
        exact absurd hq1 zero_ne_one
  | base hne hzero hone =>
    have hq1 := hq.mp hone
    have hp1 : p ≠ 1 := fun h => by rw [hp.mpr h] at hne; cases hne
    subst hq1
    refine ⟨p, ha, ?_⟩
    rw [Numeric.comesTo_power_one ha hb, Foldable]
    exact ⟨fun h => ⟨fun _ => h, fun h => absurd h hp1⟩, fun h => h.1 rfl⟩
  | value hne hne' hv hint hc =>
    obtain ⟨k, hk⟩ := Decimal.exists_of_isIntegral hint
    refine ⟨k, Decimal.toRat?_of_plus hk (Numeric.yields_fitsIn_power a b _ hv hint) hc, ?_⟩
    refine iff_of_true ⟨_, hv, hk⟩ ⟨fun hq1 => ?_, fun hp1 => ?_⟩
    · rw [hq.mpr hq1] at hne'
      cases hne'
    · rw [hp.mpr hp1] at hne
      cases hne

/-- What two numbers are folded to is what the evaluator comes to, where it can. -/
theorem comesTo_iff_foldable (ha : a.toRat? = some p) (hb : b.toRat? = some q)
    (h : combine op (number a) (number b) = .ok (number c)) :
    ∃ r, c.toRat? = some r ∧ (ComesTo (op.numeric a b) r ↔ Foldable op p q r) := by
  have hrounded {comp : Computation} {y : Except Failure Decimal} {s : ℚ}
      (hrule : rule op (number a) (number b) = rounded comp)
      (hrounds : Context.working.Rounds s comp.result) (hy : comp.result.mapError .signal = y) :
      ∃ r, c.toRat? = some r ∧ ComesTo y r :=
    exists_comesTo_of_rounds hrounds hy (combine_rounded hrule h)
  cases op with
  | plus =>
    obtain ⟨r, hr, hcomes⟩ := hrounded rfl (Decimal.rounds_add (by decide) ha hb) rfl
    exact ⟨r, hr, iff_of_true hcomes trivial⟩
  | minus =>
    obtain ⟨r, hr, hcomes⟩ := hrounded rfl (Decimal.rounds_sub (by decide) ha hb) rfl
    exact ⟨r, hr, iff_of_true hcomes trivial⟩
  | times =>
    obtain ⟨r, hr, hcomes⟩ := hrounded rfl (Decimal.rounds_mul (by decide) ha hb) rfl
    exact ⟨r, hr, iff_of_true hcomes trivial⟩
  | div => exact comesTo_quotient_iff ha hb h
  | power => exact comesTo_power_iff ha hb h
  | modulo | log | greater | less | atLeast | atMost | equal | unequal | or | and =>
    obtain ⟨below, hbelow⟩ := exists_combine_numbers _ a b
    rw [hbelow] at h
    cases h

theorem exists_comesTo_sqrt (h : apply .sqrt (number a) = .ok (number c)) :
    ∃ r, c.toRat? = some r ∧ ComesTo (Numeric.sqrt a) r := by
  obtain ⟨v, hv, hint, hc⟩ := apply_sqrt h
  obtain ⟨k, hk⟩ := Decimal.exists_of_isIntegral hint
  exact ⟨k, Decimal.toRat?_of_plus hk (Numeric.yields_fitsIn_sqrt a v hv) hc, v, hv, hk⟩

/-! ### The evaluator -/

theorem value_binary_numbers (unit : AngleUnit) (bindings : Bindings) (op : Binary)
    (a b : Decimal) :
    (binary op (number a) (number b)).value Formula.readFormula unit bindings = op.apply a b := by
  rw [Tree.value, Tree.valueLevels_binary, Tree.chainValue_binary]
  rfl

theorem value_unary_number (unit : AngleUnit) (bindings : Bindings) (op : Unary) (a : Decimal) :
    (unary op (number a)).value Formula.readFormula unit bindings = op.apply unit a := by
  rw [Tree.value, Tree.valueLevels_unary]
  rfl

/-- Constants that are folded stay what the evaluator makes of them exactly where they are
foldable; square roots always do. -/
theorem folded_constants (unit : AngleUnit) (bindings : Bindings) (ha : a.toRat? = some p)
    (hb : b.toRat? = some q) :
    (∀ op c, combine op (number a) (number b) = .ok (number c) → ∃ r, c.toRat? = some r ∧
      ((∃ v, (binary op (number a) (number b)).value Formula.readFormula unit bindings = .ok v ∧
        v.same c = true) ↔ Foldable op p q r)) ∧
    (∀ c, apply .sqrt (number a) = .ok (number c) →
      ∃ v, (unary .sqrt (number a)).value Formula.readFormula unit bindings = .ok v ∧
        v.same c = true) := by
  constructor
  · intro op c h
    obtain ⟨r, hr, hiff⟩ := comesTo_iff_foldable ha hb h
    refine ⟨r, hr, ?_⟩
    rw [← hiff, value_binary_numbers]
    exact exists_congr fun v => and_congr mapError_eq_ok_iff (Decimal.same_iff_toRat? hr)
  · intro c h
    obtain ⟨r, hr, v, hv, hvalue⟩ := exists_comesTo_sqrt h
    refine ⟨v, ?_, Decimal.same_of_toRat?_eq hvalue hr⟩
    rw [value_unary_number]
    refine mapError_eq_ok_iff.mpr ?_
    change (Numeric.sqrt a >>= fun r => pure r) = .ok v
    rw [hv]
    rfl

theorem folded_constants_six_thirds :
    ∃ v, (binary .div (number (.ofNat 6)) (number (.ofNat 3))).value Formula.readFormula .rad [] =
      .ok v ∧ v.same (.ofNat 2) = true := by
  have hfold : combine .div (number (.ofNat 6)) (number (.ofNat 3)) = .ok (number (.ofNat 2)) := by
    decide +kernel
  obtain ⟨r, hr, hiff⟩ := (folded_constants .rad [] (Decimal.toRat?_ofNat 6)
    (Decimal.toRat?_ofNat 3)).1 .div _ hfold
  rw [Decimal.toRat?_ofNat, Option.some_inj] at hr
  exact hiff.mpr ⟨2, 0, by rw [← hr]; norm_num, by decide, by decide⟩

end Simplify

end Reckon
