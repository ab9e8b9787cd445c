import Mathlib.Data.Int.Log
import Mathlib.Data.Nat.Cast.Field
import Mathlib.Data.Nat.Cast.Order.Field
import Reckon.Proofs.Displayable
import Reckon.Proofs.RoundedFractions

/-!
# The places that a context keeps

A context keeps the digits of a positive number `x` down to the place `Context.place x`, rounded:
that is the number `Context.rounded x`. `Context.hold` is the decimal with these digits, unless it
is too large. That is what rounding a coefficient comes to (`Context.agree_round_hold`), and what
dividing coefficients comes to (`Context.agree_divCoefficients_hold`): a quotient is known to two
digits more than are kept, and a one behind them stands for the rest (`Context.hold_sticky`).
-/

namespace Reckon

open Decimal (digitCount signed ten_zpow_split)

/-! ### Places -/

theorem log_eq_of_zpow {x : ℚ} {k : Int} (hle : 10 ^ k ≤ x) (hlt : x < 10 ^ (k + 1)) :
    Int.log 10 x = k := by
  have hpos : 0 < x := (ten_zpow_pos k).trans_le hle
  have := (Int.zpow_le_iff_le_log (b := 10) (by decide) hpos).mp hle
  have := (Int.lt_zpow_iff_log_lt (b := 10) (by decide) hpos).mp hlt
  omega

/-- The first digit of a positive number stands for a power of ten. -/
theorem zpow_le_of_digitCount {c m : Nat} (hle : 10 ^ m ≤ c) (e : Int) :
    (10 : ℚ) ^ (e + m) ≤ c * 10 ^ e := by
  rw [zpow_add₀ (by norm_num), mul_comm, ← cast_ten_pow]
  exact mul_le_mul_of_nonneg_right (by exact_mod_cast hle) (ten_zpow_pos e).le

theorem lt_zpow_of_digitCount {c m : Nat} (hlt : c < 10 ^ m) (e : Int) :
    (c : ℚ) * 10 ^ e < 10 ^ (e + m) := by
  rw [zpow_add₀ (by norm_num), mul_comm ((10 : ℚ) ^ e), ← cast_ten_pow]
  exact mul_lt_mul_of_pos_right (by exact_mod_cast hlt) (ten_zpow_pos e)

/-- The place of the first digit. -/
theorem log_mul_zpow {c : Nat} (hc : c ≠ 0) (e : Int) :
    Int.log 10 ((c : ℚ) * 10 ^ e) = e + digitCount c - 1 := by
  obtain ⟨m, hm, hle, hlt⟩ := Decimal.exists_digitCount hc
  have hlast : e + digitCount c - 1 = e + m := by omega
  rw [hlast]
  refine log_eq_of_zpow (zpow_le_of_digitCount hle e) ?_
  rw [add_assoc]
  exact_mod_cast lt_zpow_of_digitCount hlt e

namespace Context
variable {ctx : Context} {negative : Bool} {x y : ℚ}

/-- The last place of the number that is kept. -/
def place (ctx : Context) (x : ℚ) : Int :=
  ctx.lastPlace (Int.log 10 x)

/-- The digits that are kept. -/
def kept (ctx : Context) (negative : Bool) (x : ℚ) : Nat :=
  ctx.rounding.nearby negative (x / 10 ^ ctx.place x)

/-- The number rounded, as the magnitude of a number of the given sign. -/
def rounded (ctx : Context) (negative : Bool) (x : ℚ) : ℚ :=
  ctx.kept negative x * 10 ^ ctx.place x

/-- The number rounded, if it is not too large then. -/
def hold (ctx : Context) (negative : Bool) (x : ℚ) : Except Signal Decimal :=
  if ctx.rounded negative x < 10 ^ (maxExponent + 1) then
    .ok (.finite negative (ctx.kept negative x) (ctx.place x))
  else .error .overflow

theorem lt_zpow_log_add_one (x : ℚ) : x < 10 ^ (Int.log 10 x + 1) := by
  exact_mod_cast Int.lt_zpow_succ_log_self (b := 10) (by decide) x

theorem zpow_log_le (hx : 0 < x) : 10 ^ Int.log 10 x ≤ x := by
  exact_mod_cast Int.zpow_log_le_self (b := 10) (by decide) hx

theorem tiny_le_place (ctx : Context) (x : ℚ) : ctx.tiny ≤ ctx.place x :=
  le_max_left _ _

/-- The last place is not before the first one, unless the number is below the smallest one. -/
theorem place_le_log (hctx : 0 < ctx.digits) (htiny : ctx.tiny ≤ Int.log 10 x) :
    ctx.place x ≤ Int.log 10 x := by
  rw [place, lastPlace]
  omega

theorem place_le_of_le_zpow {k : Int} (hctx : 0 < ctx.digits) (hx : 0 < x) (htiny : ctx.tiny ≤ k)
    (h : x ≤ 10 ^ k) : ctx.place x ≤ k := by
  have hlog : Int.log 10 x ≤ k := by
    have := (zpow_log_le hx).trans h
    rwa [zpow_le_zpow_iff_right₀ (by norm_num)] at this
  rw [place, lastPlace]
  omega

/-- A number below a power of ten is rounded to that power at most. -/
theorem rounded_le_zpow {k : Int} (hx : 0 ≤ x) (hk : ctx.place x ≤ k) (h : x ≤ 10 ^ k) :
    ctx.rounded negative x ≤ 10 ^ k := by
  have hpos := ten_zpow_pos (ctx.place x)
  have hpow : (10 : ℚ) ^ k = (10 ^ (k - ctx.place x).toNat : ℕ) * 10 ^ ctx.place x :=
    ten_zpow_split hk
  rw [rounded, hpow]
  refine mul_le_mul_of_nonneg_right ?_ hpos.le
  exact_mod_cast Rounding.nearby_le (div_nonneg hx hpos.le) ((div_le_iff₀ hpos).mpr (hpow ▸ h))

theorem zpow_le_rounded {k : Int} (hk : ctx.place x ≤ k) (h : 10 ^ k ≤ x) :
    10 ^ k ≤ ctx.rounded negative x := by
  have hpos := ten_zpow_pos (ctx.place x)
  have hpow : (10 : ℚ) ^ k = (10 ^ (k - ctx.place x).toNat : ℕ) * 10 ^ ctx.place x :=
    ten_zpow_split hk
  rw [rounded, hpow]
  refine mul_le_mul_of_nonneg_right ?_ hpos.le
  exact_mod_cast Rounding.le_nearby ((le_div_iff₀ hpos).mpr (hpow ▸ h))

/-- A multiple of the last place stays as it is. -/
theorem rounded_eq_self {n : Nat} (h : x = n * 10 ^ ctx.place x) :
    ctx.rounded negative x = x := by
  have hne := (ten_zpow_pos (ctx.place x)).ne'
  have hdiv : x / 10 ^ ctx.place x = n := by
    rw [div_eq_iff hne]
    exact h
  rw [rounded, kept, hdiv, Rounding.nearby_natCast, ← h]

/-- At most a one with as many zeros as there are digits is kept. -/
theorem kept_le (ctx : Context) (negative : Bool) (hx : 0 ≤ x) :
    ctx.kept negative x ≤ 10 ^ ctx.digits := by
  refine Rounding.nearby_le (div_nonneg hx (ten_zpow_pos _).le) ?_
  rw [div_le_iff₀ (ten_zpow_pos _), cast_ten_pow, ← zpow_add₀ (by norm_num)]
  refine (lt_zpow_log_add_one x).le.trans (zpow_le_zpow_right₀ (by norm_num) ?_)
  rw [place, lastPlace]
  omega

theorem place_eq {c : Nat} (hc : c ≠ 0) (e : Int) :
    ctx.place (c * 10 ^ e) = ctx.lastPlace (e + digitCount c - 1) := by
  rw [place, log_mul_zpow hc]

theorem hold_eq_ok (h : ctx.rounded negative x < 10 ^ (maxExponent + 1)) :
    ctx.hold negative x = .ok (.finite negative (ctx.kept negative x) (ctx.place x)) :=
  if_pos h

theorem hold_eq_error (h : 10 ^ (maxExponent + 1) ≤ ctx.rounded negative x) :
    ctx.hold negative x = .error .overflow :=
  if_neg h.not_gt

theorem hold_zero : ctx.hold negative 0 = .ok (.finite negative 0 (ctx.place 0)) := by
  have hkept : ctx.kept negative 0 = 0 := by
    have h := ctx.rounding.nearby_natCast negative 0
    rwa [Nat.cast_zero, ← zero_div (10 ^ ctx.place 0)] at h
  rw [hold_eq_ok, hkept]
  rw [rounded, hkept, Nat.cast_zero, zero_mul]
  exact ten_zpow_pos _

theorem kept_eq {c : Nat} {e : Int} (hlast : e ≤ ctx.place (c * 10 ^ e)) :
    ctx.kept negative (c * 10 ^ e) =
      ctx.rounding.quotient negative c (10 ^ (ctx.place (c * 10 ^ e) - e).toNat) := by
  have hdiv : (c : ℚ) * 10 ^ e / 10 ^ ctx.place (c * 10 ^ e) =
      c / (10 ^ (ctx.place (c * 10 ^ e) - e).toNat : ℕ) := by
    rw [ten_zpow_split hlast, tenTo_eq]
    have := (ten_zpow_pos e).ne'
    field_simp
  rw [kept, hdiv, Rounding.nearby_div _ _ _ (Nat.pow_pos (by decide))]

/-- A number that ends before the last place is held as it is. -/
theorem agree_round_hold_of_place_le {c : Nat} {e : Int} (hc : c ≠ 0)
    (hlast : ctx.place (c * 10 ^ e) ≤ e) :
    AgreeDecimal (ctx.round negative c e) (ctx.hold negative (c * 10 ^ e)) := by
  obtain ⟨m, hcount, hle, hlt⟩ := Decimal.exists_digitCount hc
  have hleading : e + digitCount c - 1 = e + m := by
    rw [hcount]
    push_cast
    ring
  have hself : ctx.rounded negative (c * 10 ^ e) = c * 10 ^ e := by
    refine rounded_eq_self (n := c * 10 ^ (e - ctx.place (c * 10 ^ e)).toNat) ?_
    conv_lhs => rw [ten_zpow_split hlast]
    rw [tenTo_eq]
    push_cast
    ring
  rw [round_of_lastPlace_le hc (by rwa [← place_eq hc]), hleading]
  split
  · rename_i hlarge
    rw [hold_eq_error]
    · exact .error rfl
    rw [hself]
    exact (zpow_le_zpow_right₀ (by norm_num) (by omega)).trans (zpow_le_of_digitCount hle e)
  · rename_i hsmall
    rw [hold_eq_ok]
    · exact .ok ⟨rfl, hself.symm⟩
    rw [hself]
    refine (lt_zpow_of_digitCount hlt e).trans_le (zpow_le_zpow_right₀ (by norm_num) ?_)
    push_cast
    omega

/-- Of a number that does not, the digits before the last place are held. -/
theorem agree_round_hold_of_lt_place (hctx : 0 < ctx.digits) {c : Nat} {e : Int} (hc : c ≠ 0)
    (hlast : e < ctx.place (c * 10 ^ e)) :
    AgreeDecimal (ctx.round negative c e) (ctx.hold negative (c * 10 ^ e)) := by
  obtain ⟨m, hcount, hle, hlt⟩ := Decimal.exists_digitCount hc
  have hleading : e + digitCount c - 1 = e + m := by
    rw [hcount]
    push_cast
    ring
  have hplace : ctx.place (c * 10 ^ e) = max ctx.tiny (e + m - ctx.digits + 1) := by
    rw [place_eq hc, hleading, lastPlace]
  have htiny : ctx.tiny + ctx.digits = minExponent + 1 := by rw [tiny]; ring
  have hmin : minExponent < maxExponent := by decide
  have hkept : ctx.kept negative (c * 10 ^ e) = _ := kept_eq hlast.le
  rw [round_of_ne_zero hc, hleading, lastPlace, ← hplace, max_eq_right hlast.le, ← hkept]
  split
  · rename_i hlarge
    rw [hold_eq_error]
    · exact .error rfl
    calc (10 : ℚ) ^ (maxExponent + 1) ≤ 10 ^ (e + m) :=
          zpow_le_zpow_right₀ (by norm_num) (by omega)
      _ ≤ ctx.rounded negative (c * 10 ^ e) :=
          zpow_le_rounded (by omega) (zpow_le_of_digitCount hle e)
  split
  · rename_i hfew
    rw [hold_eq_ok]
    · exact .ok (.refl _)
    exact (lt_zpow_of_digitCount hfew _).trans_le (zpow_le_zpow_right₀ (by norm_num) (by omega))
  -- the number is rounded up to a power of ten
  rename_i hmany
  have hfull : ctx.kept negative (c * 10 ^ e) = 10 ^ ctx.digits :=
    le_antisymm (ctx.kept_le negative (mul_nonneg (Nat.cast_nonneg c) (ten_zpow_pos e).le))
      (Nat.le_of_not_lt hmany)
  have hvalue : ctx.rounded negative (c * 10 ^ e) = 10 ^ (ctx.place (c * 10 ^ e) + ctx.digits) := by
    rw [rounded, hfull, cast_ten_pow, zpow_add₀ (by norm_num), mul_comm]
  split
  · rw [hold_eq_ok]
    · obtain ⟨k, hk⟩ := Nat.exists_eq_add_of_lt hctx
      refine .ok ⟨rfl, ?_⟩
      rw [hfull, hk, zero_add, pow_succ, Nat.mul_div_cancel _ (by decide),
        zpow_add_one₀ (by norm_num)]
      push_cast
      ring
    rw [hvalue]
    exact zpow_lt_zpow_right₀ (by norm_num) (by omega)
  · rw [hold_eq_error]
    · exact .error rfl
    rw [hvalue]
    exact zpow_le_zpow_right₀ (by norm_num) (by omega)

/-- Rounding holds the number. -/
theorem agree_round_hold (hctx : 0 < ctx.digits) (negative : Bool) (c : Nat) (e : Int) :
    AgreeDecimal (ctx.round negative c e) (ctx.hold negative (c * 10 ^ e)) := by
  by_cases hc : c = 0
  · rw [hc, Nat.cast_zero, zero_mul, hold_zero, round, if_pos rfl]
    exact .ok ⟨rfl, by simp⟩
  rcases lt_or_ge e (ctx.place (c * 10 ^ e)) with hlast | hlast
  · exact agree_round_hold_of_lt_place hctx hc hlast
  · exact agree_round_hold_of_place_le hc hlast

/-! ### Quotients -/

/-- The first digit of a fraction is that of its integer part. -/
theorem log_fraction {n d : Nat} (hd : 0 < d) (hq : n / d ≠ 0) (f : Int) :
    Int.log 10 ((n : ℚ) / d * 10 ^ f) = f + digitCount (n / d) - 1 := by
  obtain ⟨m, hcount, hle, hlt⟩ := Decimal.exists_digitCount hq
  have hpos : (0 : ℚ) < d := by exact_mod_cast hd
  have hlow : ((n / d : ℕ) : ℚ) ≤ n / d := Nat.cast_div_le
  have hhigh : (n : ℚ) / d < (n / d + 1 : ℕ) := by
    rw [div_lt_iff₀ hpos]
    exact_mod_cast Nat.lt_mul_of_div_lt (Nat.lt_succ_self (n / d)) hd
  rw [show f + digitCount (n / d) - 1 = f + m by omega]
  refine log_eq_of_zpow ?_ ?_
  · exact (zpow_le_of_digitCount hle f).trans
      (mul_le_mul_of_nonneg_right hlow (ten_zpow_pos f).le)
  · refine (mul_lt_mul_of_pos_right hhigh (ten_zpow_pos f)).trans_le ?_
    rw [add_assoc, zpow_add₀ (by norm_num), mul_comm, ← Nat.cast_succ, ← cast_ten_pow]
    exact mul_le_mul_of_nonneg_left (by exact_mod_cast hlt) (ten_zpow_pos f).le

/-- Half a unit of a place is a multiple of the unit of the place behind it. -/
theorem two_mul_div_mul_pow {v w : Nat} (hrest : v % w ≠ 0) (t : Nat) :
    2 * v / (w * 10 ^ (t + 1)) = v / w / (5 * 10 ^ t) ∧ 2 * v % (w * 10 ^ (t + 1)) ≠ 0 := by
  have hsplit : w * 10 ^ (t + 1) = 2 * (w * (5 * 10 ^ t)) := by
    rw [pow_succ]
    ring
  rw [hsplit, Nat.mul_div_mul_left _ _ (by decide), ← Nat.div_div_eq_div_mul, Nat.mul_mod_mul_left]
  refine ⟨rfl, fun hzero => hrest (Nat.mod_eq_zero_of_dvd ?_)⟩
  have hmod : v % (w * (5 * 10 ^ t)) = 0 := by omega
  exact (Nat.dvd_mul_right w _).trans (Nat.dvd_of_mod_eq_zero hmod)

/-- A one behind two digits too many stands for any rest. -/
theorem hold_sticky {n d : Nat} {f : Int} (hd : 0 < d) (hmod : n % d ≠ 0)
    (hq : 10 ^ ctx.digits ≤ n / d) :
    ctx.hold negative ((10 * (n / d) + 1 : ℕ) * 10 ^ (f - 1)) =
      ctx.hold negative (n / d * 10 ^ f) := by
  obtain ⟨q, hdiv⟩ : ∃ q, q = n / d := ⟨_, rfl⟩
  have hqpos : q ≠ 0 := by
    rw [hdiv]
    exact ((Nat.pow_pos (by decide)).trans_le hq).ne'
  have hlog : Int.log 10 (((10 * q + 1 : ℕ) : ℚ) * 10 ^ (f - 1)) = f + digitCount q - 1 := by
    have hcount := Decimal.digitCount_mul_add hqpos (show 1 < 10 ^ 1 by decide)
    rw [pow_one] at hcount
    rw [log_mul_zpow (by omega), hcount]
    push_cast
    ring
  have hlog' := log_fraction hd (hdiv ▸ hqpos) f
  rw [← hdiv] at hlog' hq ⊢
  have hplace : ctx.place (((10 * q + 1 : ℕ) : ℚ) * 10 ^ (f - 1)) =
      ctx.place ((n : ℚ) / d * 10 ^ f) := by
    rw [place, place, hlog, hlog']
  obtain ⟨t, ht⟩ : ∃ t : ℕ, ctx.place ((n : ℚ) / d * 10 ^ f) = f + t + 1 := by
    refine ⟨(ctx.place ((n : ℚ) / d * 10 ^ f) - f - 1).toNat, ?_⟩
    have := Decimal.lt_digitCount_of_pow_le hq
    rw [place, hlog', lastPlace]
    omega
  have hkept : ctx.kept negative (((10 * q + 1 : ℕ) : ℚ) * 10 ^ (f - 1)) =
      ctx.kept negative ((n : ℚ) / d * 10 ^ f) := by
    have hten : (0 : ℕ) < 10 ^ (t + 1) := Nat.pow_pos (by decide)
    have hleft : ((10 * q + 1 : ℕ) : ℚ) * 10 ^ (f - 1) / 10 ^ (f + t + 1) =
        (10 * q + 1 : ℕ) / (10 * 10 ^ (t + 1) : ℕ) := by
      rw [div_eq_div_iff (ten_zpow_pos _).ne' (by positivity), ← pow_succ', cast_ten_pow,
        mul_assoc, ← zpow_add₀ (by norm_num)]
      congr 2
      push_cast
      ring
    have hright : (n : ℚ) / d * 10 ^ f / 10 ^ (f + t + 1) = n / (d * 10 ^ (t + 1) : ℕ) := by
      rw [add_assoc, zpow_add₀ (by norm_num), Nat.cast_mul, cast_ten_pow, Nat.cast_succ]
      have := (ten_zpow_pos f).ne'
      field_simp
    obtain ⟨hn, hn'⟩ := two_mul_div_mul_pow hmod t
    obtain ⟨hone, hone'⟩ :=
      two_mul_div_mul_pow (v := 10 * q + 1) (w := 10) (by omega) t
    rw [kept, kept, hplace, ht, hleft, hright, Rounding.nearby_div _ _ _ (Nat.mul_pos hd hten),
      Rounding.nearby_div _ _ _ (Nat.mul_pos (by decide) hten)]
    refine Rounding.quotient_eq_of_halves (Nat.mul_pos (by decide) hten) (Nat.mul_pos hd hten) ?_
      hone' hn'
    rw [hone, hn, ← hdiv, show (10 * q + 1) / 10 = q by omega]
  rw [hold, hold, rounded, rounded, hplace, hkept]

/-- Scaled by the difference in the numbers of digits, a quotient has more digits than are kept. -/
theorem zpow_le_div_mul_zpow {c c' : Nat} (hc : c ≠ 0) (hc' : c' ≠ 0) {shift : Int}
    (hshift : shift = digitCount c' - digitCount c + ctx.digits + 1) :
    (10 : ℚ) ^ (ctx.digits : Int) ≤ c / c' * 10 ^ shift := by
  obtain ⟨k, hk, hle, -⟩ := Decimal.exists_digitCount hc
  obtain ⟨k', hk', -, hlt⟩ := Decimal.exists_digitCount hc'
  have hpos : (0 : ℚ) < c' := by exact_mod_cast Nat.pos_of_ne_zero hc'
  have hle' : (10 : ℚ) ^ (k : Int) ≤ c := by
    rw [← cast_ten_pow]
    exact_mod_cast hle
  have hlt' : (c' : ℚ) ≤ 10 ^ (k' + 1 : Int) := by
    rw [← Nat.cast_succ, ← cast_ten_pow]
    exact_mod_cast hlt.le
  rw [div_mul_eq_mul_div, le_div_iff₀ hpos]
  calc (10 : ℚ) ^ (ctx.digits : Int) * c' ≤ 10 ^ (ctx.digits : Int) * 10 ^ (k' + 1 : Int) :=
        mul_le_mul_of_nonneg_left hlt' (ten_zpow_pos _).le
    _ = 10 ^ (k : Int) * 10 ^ shift := by
        rw [← zpow_add₀ (by norm_num), ← zpow_add₀ (by norm_num)]
        congr 1
        omega
    _ ≤ c * 10 ^ shift := mul_le_mul_of_nonneg_right hle' (ten_zpow_pos _).le

/-- A quotient of positive numbers is held. -/
theorem agree_divCoefficients_hold (hctx : 0 < ctx.digits) {c c' : Nat} (hc : c ≠ 0) (hc' : c' ≠ 0)
    (ideal : Int) :
    AgreeDecimal (Decimal.divCoefficients ctx negative c c' ideal)
      (ctx.hold negative (c / c' * 10 ^ ideal)) := by
  refine (Decimal.agree_divCoefficients c c' ideal).trans ?_
  obtain ⟨shift, hshift⟩ :
      ∃ shift, shift = (digitCount c' : Int) - digitCount c + ctx.digits + 1 := ⟨_, rfl⟩
  simp only [← hshift]
  obtain ⟨n, hn⟩ : ∃ n, n = c * 10 ^ shift.toNat := ⟨_, rfl⟩
  obtain ⟨d, hd⟩ : ∃ d, d = c' * 10 ^ (-shift).toNat := ⟨_, rfl⟩
  rw [← hn, ← hd]
  have hdpos : 0 < d := hd ▸ Nat.mul_pos (Nat.pos_of_ne_zero hc') (pow_toNat_pos _)
  have hcpos : (0 : ℚ) < c' := by exact_mod_cast Nat.pos_of_ne_zero hc'
  have hfraction : (n : ℚ) / d = c / c' * 10 ^ shift := by
    rw [hn, hd, Nat.cast_mul, Nat.cast_mul, cast_pow_toNat shift]
    have : ((10 ^ (-shift).toNat : ℕ) : ℚ) ≠ 0 := by exact_mod_cast (pow_toNat_pos _).ne'
    field_simp
  have hvalue : (n : ℚ) / d * 10 ^ (ideal - shift) = c / c' * 10 ^ ideal := by
    rw [hfraction, mul_assoc, ← zpow_add₀ (by norm_num), add_sub_cancel]
  have hmany : 10 ^ ctx.digits ≤ n / d := by
    have hle := zpow_le_div_mul_zpow hc hc' hshift
    rw [← hfraction, le_div_iff₀ (by exact_mod_cast hdpos), ← cast_ten_pow] at hle
    rw [Nat.le_div_iff_mul_le hdpos]
    exact_mod_cast hle
  rw [← hvalue]
  split
  · rename_i hmod
    have hdiv : (n : ℚ) / d = (n / d : ℕ) :=
      (Nat.cast_div (Nat.dvd_of_mod_eq_zero hmod) (by exact_mod_cast hdpos.ne')).symm
    rw [hdiv]
    exact agree_round_hold hctx _ _ _
  · rename_i hmod
    rw [← hold_sticky hdpos hmod hmany]
    exact agree_round_hold hctx _ _ _

end Context

end Reckon
