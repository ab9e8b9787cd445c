import Mathlib.Tactic.FieldSimp
import Mathlib.Tactic.Linarith
import Mathlib.Tactic.NormNum
import Reckon.Proofs.DecimalOrder
import Reckon.Proofs.RoundedOnce

/-!
# Conversions between angle units

A conversion is a product and a quotient, each rounded once, so it is off by the part `1e-19` of the
exact angle at most (`Numeric.exists_convert`). Errors of this kind add up when conversions follow
each other (`IsNear.trans`), and the exact factors between three units cancel. So converting in two
steps comes to what converting in one does, but for the part `1e-18` of it
(`Numeric.convert_consistent`); the way back to the first unit is the case in which the one step
does nothing.
-/

namespace Reckon

/-! ### Near numbers -/

/-- The number `x` is `y`, but for the part `ε` of it. -/
def IsNear (ε x y : ℚ) : Prop :=
  |x - y| ≤ ε * |y|

namespace IsNear
variable {ε δ x y z : ℚ}

theorem refl (hε : 0 ≤ ε) (x : ℚ) : IsNear ε x x := by
  rw [IsNear, sub_self, abs_zero]
  exact mul_nonneg hε (abs_nonneg x)

theorem mono (h : IsNear ε x y) (hεδ : ε ≤ δ) : IsNear δ x y :=
  le_trans h (mul_le_mul_of_nonneg_right hεδ (abs_nonneg y))

theorem mul_right (h : IsNear ε x y) (c : ℚ) : IsNear ε (x * c) (y * c) := by
  rw [IsNear, ← sub_mul, abs_mul, abs_mul, ← mul_assoc]
  exact mul_le_mul_of_nonneg_right h (abs_nonneg c)

theorem abs_le (h : IsNear ε x y) : |x| ≤ (1 + ε) * |y| := by
  have hsplit := abs_add_le (x - y) y
  rw [sub_add_cancel] at hsplit
  linarith [show |x - y| ≤ ε * |y| from h]

theorem le_abs (h : IsNear ε x y) : (1 - ε) * |y| ≤ |x| := by
  have hsplit := abs_sub_le y x 0
  rw [sub_zero, sub_zero, abs_sub_comm] at hsplit
  linarith [show |x - y| ≤ ε * |y| from h]

theorem trans (h : IsNear ε x y) (h' : IsNear δ y z) (hε : 0 ≤ ε) :
    IsNear (ε + δ + ε * δ) x z := by
  calc |x - z| ≤ |x - y| + |y - z| := abs_sub_le x y z
    _ ≤ ε * ((1 + δ) * |z|) + δ * |z| :=
        add_le_add (le_trans h (mul_le_mul_of_nonneg_left h'.abs_le hε)) h'
    _ = (ε + δ + ε * δ) * |z| := by ring

theorem symm (h : IsNear ε x y) (hε : 0 ≤ ε) (hhalf : ε ≤ 1 / 2) : IsNear (2 * ε) y x := by
  have htwice : |y| ≤ 2 * |x| := by
    have := mul_le_mul_of_nonneg_right (show 1 / 2 ≤ 1 - ε by linarith) (abs_nonneg y)
    linarith [h.le_abs]
  calc |y - x| = |x - y| := abs_sub_comm y x
    _ ≤ ε * (2 * |x|) := le_trans h (mul_le_mul_of_nonneg_left htwice hε)
    _ = 2 * ε * |x| := by ring

end IsNear

/-- Zero, or a number between `10 ^ (-k)` and `10 ^ k` but for its sign. -/
def IsWithin (k : ℤ) (x : ℚ) : Prop :=
  x = 0 ∨ 10 ^ (-k) ≤ |x| ∧ |x| ≤ 10 ^ k

namespace IsWithin
variable {k : ℤ} {ε x y c : ℚ}

/-- A factor between a thousandth and a thousand moves the point by three digits at most. -/
theorem mul (h : IsWithin k x) (hlow : 10 ^ (-3 : ℤ) ≤ c) (hhigh : c ≤ 10 ^ (3 : ℤ)) :
    IsWithin (k + 3) (x * c) := by
  have hc : 0 < c := (ten_zpow_pos _).trans_le hlow
  rcases h with rfl | ⟨hxlow, hxhigh⟩
  · exact .inl (zero_mul c)
  right
  rw [abs_mul, abs_of_pos hc, neg_add, zpow_add₀ (by norm_num), zpow_add₀ (by norm_num)]
  exact ⟨mul_le_mul hxlow hlow (ten_zpow_pos _).le (abs_nonneg x),
    mul_le_mul hxhigh hhigh hc.le (ten_zpow_pos _).le⟩

theorem of_near (h : IsWithin k y) (hx : IsNear ε x y) (hhalf : ε ≤ 1 / 2) :
    IsWithin (k + 1) x := by
  rcases h with rfl | ⟨hlow, hhigh⟩
  · left
    have := hx
    rwa [IsNear, abs_zero, mul_zero, sub_zero, abs_nonpos_iff] at this
  right
  rw [neg_add, zpow_add₀ (by norm_num), zpow_add₀ (by norm_num)]
  have hpart := mul_le_mul_of_nonneg_right hhalf (abs_nonneg y)
  have hleast := ten_zpow_pos (-k)
  rw [zpow_neg_one, zpow_one]
  constructor
  · linarith [hx.le_abs]
  · linarith [hx.abs_le]

end IsWithin

/-- A rounded number is off by half a unit of its last digit at most. -/
theorem Context.isNear_fit {ctx : Context} {q : ℚ} (hr : ctx.rounding.IsNearest)
    (hq : q = 0 ∨ 10 ^ minExponent ≤ |q|) :
    IsNear (10 ^ (1 - ctx.digits : ℤ) / 2) (ctx.fit q) q := by
  rcases hq with rfl | hq
  · rw [ctx.fits_zero.fit_eq]
    exact .refl (half_pos (ten_zpow_pos _)).le 0
  have hpos : 0 < |q| := (ten_zpow_pos _).trans_le hq
  have hlog : minExponent ≤ Int.log 10 |q| := by
    exact_mod_cast (Int.zpow_le_iff_le_log (b := 10) (by decide) hpos).mp (by exact_mod_cast hq)
  have hplace : ctx.place |q| = Int.log 10 |q| + (1 - ctx.digits) := by
    rw [place, lastPlace, tiny]
    omega
  calc |ctx.fit q - q| ≤ 10 ^ ctx.place |q| / 2 := abs_fit_sub_le hr q
    _ = 10 ^ (1 - ctx.digits : ℤ) / 2 * 10 ^ Int.log 10 |q| := by
        rw [hplace, zpow_add₀ (by norm_num)]
        ring
    _ ≤ 10 ^ (1 - ctx.digits : ℤ) / 2 * |q| :=
        mul_le_mul_of_nonneg_left (zpow_log_le hpos) (half_pos (ten_zpow_pos _)).le

theorem IsWithin.abs_le {k : ℤ} {x : ℚ} (h : IsWithin k x) : |x| ≤ 10 ^ k := by
  rcases h with rfl | h
  · rw [abs_zero]
    exact (ten_zpow_pos k).le
  · exact h.2

/-- A result of moderate size that is rounded once exists and is near to the exact one. -/
theorem Context.Rounds.exists_near {ctx : Context} {k : ℤ} {x : ℚ} {r : Except Signal Decimal}
    (h : ctx.Rounds x r) (hctx : 0 < ctx.digits) (hr : ctx.rounding.IsNearest)
    (hx : IsWithin k x) (hk : k ≤ 900030) :
    ∃ a s, r = .ok a ∧ a.toRat? = some s ∧ IsNear (10 ^ (1 - ctx.digits : ℤ) / 2) s x := by
  have htiny : ctx.tiny ≤ maxExponent := by
    rw [tiny, minExponent, maxExponent]
    omega
  have hlarge : |x| ≤ 10 ^ maxExponent :=
    hx.abs_le.trans (zpow_le_zpow_right₀ (by norm_num) (by unfold maxExponent; omega))
  have hsmall : x = 0 ∨ 10 ^ minExponent ≤ |x| := by
    refine hx.imp_right fun h => ?_
    exact (zpow_le_zpow_right₀ (by norm_num) (by unfold minExponent; omega)).trans h.1
  obtain ⟨a, ha, hvalue⟩ := h.exists_of_le hctx htiny le_rfl hlarge
  exact ⟨a, _, ha, hvalue, isNear_fit hr hsmall⟩

/-! ### Conversions -/

/-- Half a turn in the given unit. -/
def AngleUnit.halfTurn : AngleUnit → Decimal
  | rad => Numeric.pi
  | deg => Numeric.halfTurnDegrees
  | grad => Numeric.halfTurnGradians

theorem AngleUnit.exists_halfTurn (unit : AngleUnit) :
    ∃ h, unit.halfTurn.toRat? = some h ∧ 1 ≤ h ∧ h ≤ 10 ^ (3 : ℤ) := by
  cases unit with
  | rad =>
    refine ⟨_, Decimal.toRat?_finite .., ?_, ?_⟩ <;> norm_num [Decimal.signed]
  | deg => exact ⟨180, Decimal.toRat?_ofNat 180, by norm_num, by norm_num⟩
  | grad => exact ⟨200, Decimal.toRat?_ofNat 200, by norm_num, by norm_num⟩

namespace Numeric

/-- An angle in the unit `u`, in the unit `v`. -/
def convert (u v : AngleUnit) (a : Decimal) : Except Failure Decimal :=
  match u, v with
  | u, .rad => toRadians u a
  | .rad, v => fromRadians v a
  | .deg, .grad => degToGrad a
  | .grad, .deg => gradToDeg a
  | .deg, .deg | .grad, .grad => .ok a

variable {a b c : Decimal} {u v : AngleUnit} {k : ℤ} {p q r : ℚ}

theorem convert_self (u : AngleUnit) (a : Decimal) : convert u u a = .ok a := by
  cases u <;> rfl

theorem convert_of_ne (h : u ≠ v) (a : Decimal) :
    convert u v a = rescale v.halfTurn u.halfTurn a := by
  cases u <;> cases v <;> first | rfl | exact absurd rfl h

/-- A number rescaled is rounded twice, to fifty digits and to twenty. -/
theorem exists_rescale (ha : a.toRat? = some q) (hb : b.toRat? = some p) (hc : c.toRat? = some r)
    (hq : IsWithin k q) (hk : k ≤ 900020) (hp : 1 ≤ p ∧ p ≤ 10 ^ (3 : ℤ))
    (hr : 1 ≤ r ∧ r ≤ 10 ^ (3 : ℤ)) :
    ∃ x s, rescale b c a = .ok x ∧ x.toRat? = some s ∧
      IsNear (10 ^ (-19 : ℤ)) s (q * (p / r)) := by
  have hrpos : 0 < r := by linarith
  have hthousandth : (10 : ℚ) ^ (-3 : ℤ) ≤ 1 / r := by
    rw [zpow_neg, ← one_div]
    exact one_div_le_one_div_of_le hrpos hr.2
  have hproduct : IsWithin (k + 3) (q * p) :=
    hq.mul (le_trans (by norm_num) hp.1) hp.2
  have hmultiplied : Context.working.Rounds (q * p) _ := Decimal.rounds_mul (by decide) ha hb
  obtain ⟨x, m, hx, hm, hfirst⟩ :=
    hmultiplied.exists_near (by decide) (.inl rfl) hproduct (by omega)
  have hquotient : IsWithin (k + 7) (m * (1 / r)) := by
    have := (hproduct.of_near (hfirst.mono (by norm_num [Context.working])) le_rfl).mul
      hthousandth (((div_le_one hrpos).mpr hr.1).trans (by norm_num))
    rwa [show k + 3 + 1 + 3 = k + 7 by ring] at this
  have hdivided : Context.quotient.Rounds (m / r) _ :=
    Decimal.rounds_div (by decide) hm hc hrpos.ne'
  rw [div_eq_mul_one_div] at hdivided
  obtain ⟨y, s, hy, hs, hsecond⟩ :=
    hdivided.exists_near (by decide) (.inl rfl) hquotient (by omega)
  refine ⟨y, s, ?_, hs, ?_⟩
  · rw [rescale, hx]
    exact mapError_eq_ok_iff.mpr hy
  · have hboth := hsecond.trans (hfirst.mul_right (1 / r)) (by norm_num [Context.quotient])
    rw [show q * p * (1 / r) = q * (p / r) by ring] at hboth
    exact hboth.mono (by norm_num [Context.working, Context.quotient])

/-- A conversion comes near to the exact angle. -/
theorem exists_convert (ha : a.toRat? = some q) (hu : u.halfTurn.toRat? = some p)
    (hv : v.halfTurn.toRat? = some r) (hq : IsWithin k q) (hk : k ≤ 900020) :
    ∃ x s, convert u v a = .ok x ∧ x.toRat? = some s ∧
      IsNear (10 ^ (-19 : ℤ)) s (q * (r / p)) := by
  obtain ⟨p', hp', hp⟩ := u.exists_halfTurn
  obtain rfl := Option.some_inj.mp (hu.symm.trans hp')
  by_cases huv : u = v
  · subst huv
    obtain rfl := Option.some_inj.mp (hu.symm.trans hv)
    refine ⟨a, q, convert_self u a, ha, ?_⟩
    rw [div_self (by linarith : p ≠ 0), mul_one]
    exact .refl (ten_zpow_pos _).le q
  obtain ⟨r', hr', hr⟩ := v.exists_halfTurn
  obtain rfl := Option.some_inj.mp (hv.symm.trans hr')
  rw [convert_of_ne huv]
  exact exists_rescale ha hv hu hq hk hr hp

/-- Two conversions come near to what one does: the factors of the unit between them cancel, and
the errors of all three add up. -/
theorem exists_convert_convert (ha : a.toRat? = some q) (hq : IsWithin 900000 q)
    (u v w : AngleUnit) :
    ∃ x y z s t, convert u v a = .ok x ∧ convert v w x = .ok y ∧ convert u w a = .ok z ∧
      y.toRat? = some s ∧ z.toRat? = some t ∧ IsNear (10 ^ (-18 : ℤ)) s t := by
  obtain ⟨p, hu, hp⟩ := u.exists_halfTurn
  obtain ⟨r, hv, hr⟩ := v.exists_halfTurn
  obtain ⟨o, hw, -⟩ := w.exists_halfTurn
  have hr0 : r ≠ 0 := by linarith
  obtain ⟨x, m, hx, hm, hfirst⟩ := exists_convert ha hu hv hq (by norm_num)
  have hmiddle : IsWithin 900007 m := by
    have hfactor : q * (r / p) = q * r * (1 / p) := by ring
    have := ((hq.mul (le_trans (by norm_num) hr.1) hr.2).mul (c := 1 / p) ?_ ?_)
    · rw [← hfactor] at this
      exact this.of_near hfirst (by norm_num)
    · rw [zpow_neg, ← one_div]
      exact one_div_le_one_div_of_le (by linarith) hp.2
    · exact ((div_le_one (by linarith)).mpr hp.1).trans (by norm_num)
  obtain ⟨y, s, hy, hs, hsecond⟩ := exists_convert hm hv hw hmiddle (by norm_num)
  obtain ⟨z, t, hz, ht, hdirect⟩ := exists_convert ha hu hw hq (by norm_num)
  refine ⟨x, y, z, s, t, hx, hy, hz, hs, ht, ?_⟩
  have hboth := hsecond.trans (hfirst.mul_right (o / r)) (by norm_num)
  rw [show q * (r / p) * (o / r) = q * (o / p) by field_simp] at hboth
  exact (hboth.trans (hdirect.symm (by norm_num) (by norm_num)) (by norm_num)).mono (by norm_num)

/-- There and back an angle stays what it is, and a way through a third unit leads where the
direct one does, but for the part `1e-18`. -/
theorem convert_consistent (ha : a.toRat? = some q)
    (hq : q = 0 ∨ 10 ^ (-900000 : ℤ) ≤ |q| ∧ |q| ≤ 10 ^ (900000 : ℤ)) (u v w : AngleUnit) :
    (∃ x y s, convert u v a = .ok x ∧ convert v u x = .ok y ∧ y.toRat? = some s ∧
      |s - q| ≤ 10 ^ (-18 : ℤ) * |q|) ∧
    ∃ x y z s t, convert u v a = .ok x ∧ convert v w x = .ok y ∧ convert u w a = .ok z ∧
      y.toRat? = some s ∧ z.toRat? = some t ∧ |s - t| ≤ 10 ^ (-18 : ℤ) * |t| := by
  refine ⟨?_, exists_convert_convert ha hq u v w⟩
  obtain ⟨x, y, z, s, t, hx, hy, hz, hs, ht, hnear⟩ := exists_convert_convert ha hq u v u
  rw [convert_self] at hz
  obtain rfl := Except.ok.inj hz
  obtain rfl := Option.some_inj.mp (ha.symm.trans ht)
  exact ⟨x, y, s, hx, hy, hs, hnear⟩

/-- A right angle in degrees, in radians and back, and in gradians by way of radians. -/
theorem convert_consistent_right_angle :
    (∃ x y s, convert .deg .rad (.ofNat 90) = .ok x ∧ convert .rad .deg x = .ok y ∧
      y.toRat? = some s ∧ |s - 90| ≤ 10 ^ (-18 : ℤ) * |90|) ∧
    ∃ x y z s t, convert .deg .rad (.ofNat 90) = .ok x ∧ convert .rad .grad x = .ok y ∧
      convert .deg .grad (.ofNat 90) = .ok z ∧ y.toRat? = some s ∧ z.toRat? = some t ∧
      |s - t| ≤ 10 ^ (-18 : ℤ) * |t| := by
  have hlow : (10 : ℚ) ^ (-900000 : ℤ) ≤ 1 := zpow_le_one_of_nonpos₀ (by norm_num) (by norm_num)
  have hhigh : (10 : ℚ) ^ (2 : ℤ) ≤ 10 ^ (900000 : ℤ) :=
    zpow_le_zpow_right₀ (by norm_num) (by norm_num)
  have hsize : 10 ^ (-900000 : ℤ) ≤ |(90 : ℚ)| ∧ |(90 : ℚ)| ≤ 10 ^ (900000 : ℤ) :=
    ⟨hlow.trans (by norm_num), le_trans (by norm_num) hhigh⟩
  exact convert_consistent (Decimal.toRat?_ofNat 90) (.inr hsize) .deg .rad .grad

end Numeric

end Reckon
