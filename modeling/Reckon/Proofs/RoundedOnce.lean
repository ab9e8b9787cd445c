import Reckon.Proofs.Places

/-!
# Results that are rounded once

Sums, products and quotients are the exact value rounded one time (`Context.Rounds`). So a result
that fits into the context is exact (`Context.Rounds.exact`), and any other is at most half a unit
of its last place off (`Context.abs_fit_sub_le`).
-/

namespace Reckon

open Decimal (digitCount signed ten_zpow_split)

namespace Context
variable {ctx : Context} {negative : Bool} {x : ℚ}

/-! ### Values -/

/-- The number rounded. -/
def fit (ctx : Context) (q : ℚ) : ℚ :=
  if q < 0 then -ctx.rounded true |q| else ctx.rounded false |q|

/-- No more digits than are kept, and none of them below the smallest exponent. -/
def Fits (ctx : Context) (q : ℚ) : Prop :=
  ∃ z k : ℤ, q = z * 10 ^ k ∧ z.natAbs < 10 ^ ctx.digits ∧ ctx.tiny ≤ k

/-- A number that fits and is no larger than numbers can be. -/
def Holds (ctx : Context) (q : ℚ) : Prop :=
  ctx.Fits q ∧ |q| < 10 ^ (maxExponent + 1)

/-- The result is the number `q` rounded, unless that is too large. -/
def Rounds (ctx : Context) (q : ℚ) (r : Except Signal Decimal) : Prop :=
  if |ctx.fit q| < 10 ^ (maxExponent + 1) then ∃ a, r = .ok a ∧ a.toRat? = some (ctx.fit q)
  else r = .error .overflow

theorem rounded_nonneg (ctx : Context) (negative : Bool) (x : ℚ) : 0 ≤ ctx.rounded negative x :=
  mul_nonneg (Nat.cast_nonneg _) (ten_zpow_pos _).le

theorem rounded_zero : ctx.rounded negative 0 = 0 :=
  rounded_eq_self (n := 0) (by simp)

variable {q s : ℚ} {a : Decimal} {r r' : Except Signal Decimal}

theorem fit_eq (hneg : q < 0 → negative = true) (hpos : 0 < q → negative = false) :
    ctx.fit q = signed negative (ctx.kept negative |q|) * 10 ^ ctx.place |q| := by
  rw [fit]
  rcases lt_trichotomy q 0 with hq | rfl | hq
  · rw [if_pos hq, hneg hq, Decimal.signed_true, rounded]
    push_cast
    rw [neg_mul]
  · have hzero : ctx.rounded negative 0 = 0 := rounded_zero
    rw [rounded] at hzero
    rw [if_neg (lt_irrefl 0), abs_zero, rounded_zero]
    cases negative with
    | false => exact hzero.symm
    | true =>
      rw [Decimal.signed_true]
      push_cast
      rw [neg_mul, hzero, neg_zero]
  · rw [if_neg hq.not_gt, hpos hq]
    rfl

theorem rounds_of_agree_hold (hneg : q < 0 → negative = true) (hpos : 0 < q → negative = false)
    (h : AgreeDecimal r (ctx.hold negative |q|)) : ctx.Rounds q r := by
  have hfit : ctx.fit q = signed negative (ctx.kept negative |q|) * 10 ^ ctx.place |q| :=
    fit_eq hneg hpos
  have habs : |ctx.fit q| = ctx.rounded negative |q| := by
    rw [hfit, abs_mul, abs_of_pos (ten_zpow_pos _), rounded]
    cases negative <;> simp [signed]
  rw [Rounds, habs]
  split
  · rename_i hlt
    rw [hold_eq_ok hlt] at h
    cases h with
    | ok h => exact ⟨_, rfl, by rw [h.toRat?_eq, hfit, Decimal.toRat?_finite]⟩
  · rename_i hlarge
    rw [hold_eq_error (not_lt.mp hlarge)] at h
    cases h with
    | error h => rw [h]

theorem Rounds.of_agree (h : ctx.Rounds q r') (hr : AgreeDecimal r r') : ctx.Rounds q r := by
  rw [Rounds] at h ⊢
  split at h
  · rename_i hlt
    obtain ⟨a, rfl, ha⟩ := h
    rw [if_pos hlt]
    cases hr with
    | ok hr => exact ⟨_, rfl, hr.toRat?_eq.trans ha⟩
  · rename_i hlarge
    rw [h] at hr
    rw [if_neg hlarge]
    cases hr with
    | error hr => rw [hr]

theorem rounds_round (hctx : 0 < ctx.digits) (negative : Bool) (c : Nat) (e : Int) :
    ctx.Rounds (signed negative c * 10 ^ e) (ctx.round negative c e) := by
  have hpos := ten_zpow_pos e
  have habs : |(signed negative c : ℚ) * 10 ^ e| = c * 10 ^ e := by
    rw [abs_mul, abs_of_pos hpos]
    cases negative <;> simp [signed]
  have hagree := agree_round_hold hctx negative c e
  rw [← habs] at hagree
  refine rounds_of_agree_hold ?_ ?_ hagree
  · intro hlt
    cases negative with
    | true => rfl
    | false =>
      have hnonneg : (0 : ℚ) ≤ c * 10 ^ e := mul_nonneg (Nat.cast_nonneg c) hpos.le
      exact absurd hlt hnonneg.not_gt
  · intro hlt
    cases negative with
    | false => rfl
    | true =>
      have hnonneg : (0 : ℚ) ≤ c * 10 ^ e := mul_nonneg (Nat.cast_nonneg c) hpos.le
      rw [Decimal.signed_true] at hlt
      push_cast at hlt
      linarith

/-! ### Results that fit -/

theorem Fits.rounded_eq (h : ctx.Fits q) : ctx.rounded negative |q| = |q| := by
  obtain ⟨z, k, rfl, hsmall, htiny⟩ := h
  have habs : |(z : ℚ) * 10 ^ k| = z.natAbs * 10 ^ k := by
    rw [abs_mul, abs_of_pos (ten_zpow_pos k), Nat.cast_natAbs, Int.cast_abs]
  rw [habs]
  by_cases hz : z.natAbs = 0
  · rw [hz, Nat.cast_zero, zero_mul, rounded_zero]
  have hlast : ctx.place (z.natAbs * 10 ^ k) ≤ k := by
    have := Decimal.digitCount_le_of_lt_pow hz hsmall
    rw [place_eq hz, lastPlace]
    omega
  refine rounded_eq_self (n := z.natAbs * 10 ^ (k - ctx.place (z.natAbs * 10 ^ k)).toNat) ?_
  conv_lhs => rw [ten_zpow_split hlast]
  rw [tenTo_eq]
  push_cast
  ring

theorem Fits.fit_eq (h : ctx.Fits q) : ctx.fit q = q := by
  rw [fit, h.rounded_eq, h.rounded_eq]
  split
  · rename_i hq
    rw [abs_of_neg hq, neg_neg]
  · rename_i hq
    exact abs_of_nonneg (not_lt.mp hq)

theorem fits_zero (ctx : Context) : ctx.Fits 0 :=
  ⟨0, ctx.tiny, by simp, Nat.pow_pos (by decide), le_rfl⟩

theorem Fits.neg (h : ctx.Fits q) : ctx.Fits (-q) := by
  obtain ⟨z, k, rfl, hz, hk⟩ := h
  exact ⟨-z, k, by push_cast; ring, by rwa [Int.natAbs_neg], hk⟩

theorem Fits.abs (h : ctx.Fits q) : ctx.Fits |q| := by
  rcases abs_choice q with habs | habs
  · rwa [habs]
  · rw [habs]
    exact h.neg

theorem fits_rounded (hctx : 0 < ctx.digits) (negative : Bool) (hx : 0 ≤ x) :
    ctx.Fits (ctx.rounded negative x) := by
  have htiny := ctx.tiny_le_place x
  rcases (ctx.kept_le negative hx).lt_or_eq with hlt | heq
  · exact ⟨ctx.kept negative x, ctx.place x, rfl, hlt, htiny⟩
  · refine ⟨1, ctx.place x + ctx.digits, ?_, Nat.one_lt_pow hctx.ne' (by decide), by omega⟩
    rw [rounded, heq, cast_ten_pow, zpow_add₀ (by norm_num)]
    push_cast
    ring

/-- The number rounded fits. -/
theorem fits_fit (hctx : 0 < ctx.digits) (q : ℚ) : ctx.Fits (ctx.fit q) := by
  rw [fit]
  split
  · exact (fits_rounded hctx true (abs_nonneg q)).neg
  · exact fits_rounded hctx false (abs_nonneg q)

/-- A result that fits is exact. -/
theorem Rounds.exact (h : ctx.Rounds q r) (hq : ctx.Holds q) :
    ∃ a, r = .ok a ∧ a.toRat? = some q := by
  rw [Rounds, hq.1.fit_eq, if_pos hq.2] at h
  exact h

theorem Holds.abs (h : ctx.Holds q) : ctx.Holds |q| :=
  ⟨h.1.abs, by rw [abs_abs]; exact h.2⟩

theorem holds_of_lt_pow {n : ℕ} {k : ℤ} (hn : n < 10 ^ ctx.digits)
    (htiny : ctx.tiny ≤ k) (hmax : k + ctx.digits ≤ maxExponent + 1) : ctx.Holds (n * 10 ^ k) := by
  refine ⟨⟨n, k, by rw [Int.cast_natCast], hn, htiny⟩, ?_⟩
  rw [abs_of_nonneg (mul_nonneg (Nat.cast_nonneg n) (ten_zpow_pos k).le)]
  exact (lt_zpow_of_digitCount hn k).trans_le (zpow_le_zpow_right₀ (by norm_num) hmax)

theorem Rounds.toRat?_eq (h : ctx.Rounds q r) (ha : r = .ok a) :
    a.toRat? = some (ctx.fit q) := by
  rw [Rounds] at h
  split at h
  · obtain ⟨b, hb, hvalue⟩ := h
    rw [ha] at hb
    rw [Except.ok.inj hb, hvalue]
  · rw [ha] at h
    cases h

theorem Rounds.abs_fit_lt (h : ctx.Rounds q r) (ha : r = .ok a) :
    |ctx.fit q| < 10 ^ (maxExponent + 1) := by
  by_contra hlarge
  rw [Rounds, if_neg hlarge, ha] at h
  cases h

theorem Holds.rounds (h : ctx.Holds q) (ha : a.toRat? = some q) : ctx.Rounds q (.ok a) := by
  rw [Rounds, h.1.fit_eq, if_pos h.2]
  exact ⟨a, rfl, ha⟩

/-- A rounded result is the number `s` if that is the number rounded, and small enough. -/
theorem Rounds.exists_iff (h : ctx.Rounds q r) :
    (∃ a, r = .ok a ∧ a.toRat? = some s) ↔
      ctx.fit q = s ∧ |ctx.fit q| < 10 ^ (maxExponent + 1) := by
  constructor
  · rintro ⟨a, ha, hvalue⟩
    exact ⟨Option.some_inj.mp ((h.toRat?_eq ha).symm.trans hvalue), h.abs_fit_lt ha⟩
  · rintro ⟨rfl, hlt⟩
    rw [Rounds, if_pos hlt] at h
    exact h

/-- The number itself is the result only if it is held. -/
theorem Rounds.exists_self_iff (hctx : 0 < ctx.digits) (h : ctx.Rounds q r) :
    (∃ a, r = .ok a ∧ a.toRat? = some q) ↔ ctx.Holds q := by
  rw [h.exists_iff]
  constructor
  · rintro ⟨hfit, hlt⟩
    rw [hfit] at hlt
    exact ⟨hfit ▸ fits_fit hctx q, hlt⟩
  · intro hq
    rw [hq.1.fit_eq]
    exact ⟨rfl, hq.2⟩

theorem abs_rounded_sub_le (hr : ctx.rounding.IsNearest) (negative : Bool) (hx : 0 ≤ x) :
    |ctx.rounded negative x - x| ≤ 10 ^ ctx.place x / 2 := by
  have hpos := ten_zpow_pos (ctx.place x)
  have hnear := hr.abs_nearby_sub_le negative (div_nonneg hx hpos.le)
  have hfactor : ctx.rounded negative x - x =
      (ctx.rounding.nearby negative (x / 10 ^ ctx.place x) - x / 10 ^ ctx.place x) *
        10 ^ ctx.place x := by
    rw [sub_mul, div_mul_cancel₀ _ hpos.ne']
    rfl
  rw [hfactor, abs_mul, abs_of_pos hpos]
  refine (mul_le_mul_of_nonneg_right hnear hpos.le).trans_eq ?_
  ring

/-- Rounding to the nearest is at most half a unit of the last place off. -/
theorem abs_fit_sub_le (hr : ctx.rounding.IsNearest) (q : ℚ) :
    |ctx.fit q - q| ≤ 10 ^ ctx.place |q| / 2 := by
  rw [fit]
  split
  · rename_i hq
    have h := abs_rounded_sub_le hr true (abs_nonneg q)
    rwa [show -ctx.rounded true |q| - q = -(ctx.rounded true |q| - -q) by ring, abs_neg,
      ← abs_of_neg hq]
  · rename_i hq
    have h := abs_rounded_sub_le hr false (abs_nonneg q)
    rwa [abs_of_nonneg (not_lt.mp hq)] at h ⊢

/-! ### Bounds -/

theorem fit_of_nonneg (hq : 0 ≤ q) : ctx.fit q = ctx.rounded false q := by
  rw [fit, if_neg hq.not_gt, abs_of_nonneg hq]

theorem fit_nonneg (hq : 0 ≤ q) : 0 ≤ ctx.fit q := by
  rw [fit_of_nonneg hq]
  exact ctx.rounded_nonneg false q

/-- No number is rounded above a power of ten. -/
theorem abs_fit_le_zpow {k : Int} (hctx : 0 < ctx.digits) (htiny : ctx.tiny ≤ k)
    (h : |q| ≤ 10 ^ k) : |ctx.fit q| ≤ 10 ^ k := by
  have hrounded : ∀ negative, ctx.rounded negative |q| ≤ 10 ^ k := by
    intro negative
    rcases (abs_nonneg q).eq_or_lt with hzero | hpos
    · rw [← hzero, rounded_zero]
      exact (ten_zpow_pos k).le
    · exact rounded_le_zpow hpos.le (place_le_of_le_zpow hctx hpos htiny h) h
  rw [fit]
  split
  · rw [abs_neg, abs_of_nonneg (ctx.rounded_nonneg true _)]
    exact hrounded true
  · rw [abs_of_nonneg (ctx.rounded_nonneg false _)]
    exact hrounded false

/-- No number is rounded below a power of ten. -/
theorem zpow_le_fit {k : Int} (hctx : 0 < ctx.digits) (htiny : ctx.tiny ≤ k) (h : 10 ^ k ≤ q) :
    10 ^ k ≤ ctx.fit q := by
  have hpos : 0 < q := (ten_zpow_pos k).trans_le h
  have hlog : k ≤ Int.log 10 q := by
    exact_mod_cast (Int.zpow_le_iff_le_log (b := 10) (by decide) hpos).mp (by exact_mod_cast h)
  rw [fit_of_nonneg hpos.le]
  exact (zpow_le_zpow_right₀ (by norm_num) hlog).trans
    (zpow_le_rounded (place_le_log hctx (by omega)) (zpow_log_le hpos))

/-- Rounding changes a number below a power of ten by half a unit of its last place at most. -/
theorem abs_fit_sub_le_zpow {k : Int} (hr : ctx.rounding.IsNearest)
    (htiny : ctx.tiny ≤ k - ctx.digits + 1) (h : |q| < 10 ^ (k + 1)) :
    |ctx.fit q - q| ≤ 10 ^ (k - ctx.digits + 1) / 2 := by
  rcases eq_or_ne q 0 with rfl | hq
  · rw [ctx.fits_zero.fit_eq, sub_zero, abs_zero]
    exact (half_pos (ten_zpow_pos _)).le
  have hlog : Int.log 10 |q| < k + 1 := by
    have := (zpow_log_le (abs_pos.mpr hq)).trans_lt h
    rwa [zpow_lt_zpow_iff_right₀ (by norm_num)] at this
  refine (abs_fit_sub_le hr q).trans (div_le_div_of_nonneg_right ?_ zero_le_two)
  refine zpow_le_zpow_right₀ (by norm_num) ?_
  rw [place, lastPlace]
  omega

/-- A number that is not too large has a rounded result, which is not larger. -/
theorem Rounds.exists_of_le {k : Int} (h : ctx.Rounds q r) (hctx : 0 < ctx.digits)
    (htiny : ctx.tiny ≤ k) (hk : k ≤ maxExponent) (hq : |q| ≤ 10 ^ k) :
    ∃ a, r = .ok a ∧ a.toRat? = some (ctx.fit q) := by
  rw [Rounds, if_pos] at h
  · exact h
  exact (abs_fit_le_zpow hctx htiny hq).trans_lt (zpow_lt_zpow_right₀ (by norm_num) (by omega))

end Context

/-! ### Arithmetic -/

namespace Decimal
variable {ctx : Context} {a b : Decimal} {p q : ℚ}

open Context

theorem rounds_plus (hctx : 0 < ctx.digits) (ha : a.toRat? = some q) :
    ctx.Rounds q (plus ctx a) := by
  cases a with
  | infinite | nan => cases ha
  | finite negative c e =>
    rw [toRat?_finite, Option.some_inj, ← signed_and_ne_zero] at ha
    rw [plus, ← ha]
    exact rounds_round hctx _ _ _

theorem rounds_minus (hctx : 0 < ctx.digits) (ha : a.toRat? = some q) :
    ctx.Rounds (-q) (minus ctx a) :=
  rounds_plus hctx (by rw [toRat?_flip, ha]; rfl)

theorem nonneg_of_isNegative (ha : a.toRat? = some q) :
    if a.isNegative = true then q ≤ 0 else 0 ≤ q := by
  cases a with
  | infinite | nan => cases ha
  | finite negative c e =>
    have hnonneg : (0 : ℚ) ≤ c * 10 ^ e := mul_nonneg (Nat.cast_nonneg c) (ten_zpow_pos e).le
    rw [toRat?_finite, Option.some_inj] at ha
    rw [isNegative, ← ha]
    cases negative with
    | false => exact hnonneg
    | true =>
      rw [signed_true]
      push_cast
      rw [neg_mul, if_pos rfl]
      exact neg_nonpos.mpr hnonneg

theorem rounds_abs (hctx : 0 < ctx.digits) (ha : a.toRat? = some q) :
    ctx.Rounds |q| (abs ctx a) := by
  have hsign := nonneg_of_isNegative ha
  rw [abs]
  split
  · rename_i hneg
    rw [if_pos hneg] at hsign
    rw [abs_of_nonpos hsign]
    exact rounds_minus hctx ha
  · rename_i hpos
    rw [if_neg hpos] at hsign
    rw [abs_of_nonneg hsign]
    exact rounds_plus hctx ha

theorem rounds_add (hctx : 0 < ctx.digits) (ha : a.toRat? = some p) (hb : b.toRat? = some q) :
    ctx.Rounds (p + q) (add ctx a b) := by
  cases a with
  | infinite | nan => cases ha
  | finite m c e =>
    cases b with
    | infinite | nan => cases hb
    | finite n c' e' =>
      rw [toRat?_finite, Option.some_inj] at ha hb
      rw [← ha, ← hb, ← exactSum_mul_zpow]
      refine Rounds.of_agree ?_ (agree_add_finite hctx m c e n c' e')
      have hsigned : signed (sumSign m n (exactSum m c e n c' e'))
          (exactSum m c e n c' e').natAbs = exactSum m c e n c' e' := by
        rw [sumSign]
        split
        · rename_i hzero
          rw [hzero]
          cases m <;> cases n <;> rfl
        · by_cases hneg : exactSum m c e n c' e' < 0
          · rw [decide_eq_true hneg, signed_true]
            omega
          · rw [decide_eq_false hneg, signed_false]
            omega
      have h := rounds_round hctx (sumSign m n (exactSum m c e n c' e'))
        (exactSum m c e n c' e').natAbs (min e e')
      rwa [hsigned] at h

theorem rounds_sub (hctx : 0 < ctx.digits) (ha : a.toRat? = some p) (hb : b.toRat? = some q) :
    ctx.Rounds (p - q) (sub ctx a b) := by
  rw [sub_eq_add_neg]
  exact rounds_add hctx ha (by rw [toRat?_flip, hb]; rfl)

theorem signed_bne_mul (m n : Bool) (c c' : Nat) :
    signed (m != n) (c * c') = signed m c * signed n c' := by
  cases m <;> cases n <;> simp [signed]

theorem rounds_mul (hctx : 0 < ctx.digits) (ha : a.toRat? = some p) (hb : b.toRat? = some q) :
    ctx.Rounds (p * q) (mul ctx a b) := by
  cases a with
  | infinite | nan => cases ha
  | finite m c e =>
    cases b with
    | infinite | nan => cases hb
    | finite n c' e' =>
      rw [toRat?_finite, Option.some_inj] at ha hb
      have hproduct : p * q = (signed (m != n) (c * c') : ℚ) * 10 ^ (e + e') := by
        rw [← ha, ← hb, signed_bne_mul, zpow_add₀ (by norm_num)]
        push_cast
        ring
      rw [hproduct, mul]
      exact rounds_round hctx _ _ _

theorem rounds_div (hctx : 0 < ctx.digits) (ha : a.toRat? = some p) (hb : b.toRat? = some q)
    (hq : q ≠ 0) : ctx.Rounds (p / q) (div ctx a b) := by
  cases a with
  | infinite | nan => cases ha
  | finite m c e =>
    cases b with
    | infinite | nan => cases hb
    | finite n c' e' =>
      rw [toRat?_finite, Option.some_inj] at ha hb
      have hc' : c' ≠ 0 := by
        rintro rfl
        exact hq (hb ▸ by cases n <;> simp [signed])
      have hpos : (0 : ℚ) ≤ c / c' * 10 ^ (e - e') :=
        mul_nonneg (by positivity) (ten_zpow_pos _).le
      have hquotient : p / q = (if (m != n) = true then -1 else 1) * (c / c' * 10 ^ (e - e')) := by
        rw [← ha, ← hb, mul_div_mul_comm, ← zpow_sub₀ (by norm_num), ← mul_assoc]
        congr 1
        cases m <;> cases n <;> simp [signed, neg_div, div_neg]
      have habs : |p / q| = c / c' * 10 ^ (e - e') := by
        rw [hquotient, abs_mul, abs_of_nonneg hpos]
        split <;> simp
      have hagree : AgreeDecimal (div ctx (finite m c e) (finite n c' e'))
          (ctx.hold (m != n) |p / q|) := by
        rw [div, if_neg hc', habs]
        split
        · rename_i hc
          have h := agree_round_hold hctx (m != n) 0 (e - e')
          rwa [hc, Nat.cast_zero, zero_div, zero_mul, ← zero_mul ((10 : ℚ) ^ (e - e')),
            ← Nat.cast_zero]
        · rename_i hc
          exact agree_divCoefficients_hold hctx hc hc' _
      refine rounds_of_agree_hold ?_ ?_ hagree
      · intro hneg
        by_contra hsign
        rw [hquotient, if_neg hsign, one_mul] at hneg
        exact hneg.not_ge hpos
      · intro hlt
        by_contra hsign
        rw [hquotient, if_pos (by simpa using hsign)] at hlt
        linarith

theorem rounds_scale (hctx : 0 < ctx.digits) (ha : a.toRat? = some q) {n : Int}
    (hn : n.natAbs ≤ 2 * (Context.maxExponent.toNat + ctx.digits)) :
    ctx.Rounds (q * 10 ^ n) (scale ctx a n) := by
  cases a with
  | infinite | nan => cases ha
  | finite negative c e =>
    rw [toRat?_finite, Option.some_inj] at ha
    rw [scale, if_pos hn, ← ha, mul_assoc, ← zpow_add₀ (by norm_num)]
    exact rounds_round hctx _ _ _

end Decimal

end Reckon
