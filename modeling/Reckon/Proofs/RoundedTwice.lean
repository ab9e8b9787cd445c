import Reckon.Proofs.RoundedOnce

/-!
# Numbers that are rounded twice

What a context rounds to fits into it (`Context.fits_fit`). When that also fits into a context of
fewer digits, the narrower one rounds the number there at once (`Context.fit_eq_of_fits_fit`): the
wider result lies on a multiple of the narrower last place, less than half a unit off.
-/

namespace Reckon.Context

open Decimal (ten_zpow_split)

variable {ctx ctx' : Context} {negative : Bool} {q x : ℚ} {r : Except Signal Decimal}

/-! ### Fewer digits -/

theorem tiny_lt_tiny (hdigits : ctx'.digits < ctx.digits) : ctx.tiny < ctx'.tiny := by
  rw [tiny, tiny]
  omega

theorem place_lt_place (hdigits : ctx'.digits < ctx.digits) (x : ℚ) :
    ctx.place x < ctx'.place x := by
  have := tiny_lt_tiny hdigits
  rw [place, place, lastPlace, lastPlace]
  omega

/-- The number rounded to more digits, when it fits into fewer, ends at the last place of these. -/
theorem exists_rounded_eq_mul_place (hctx : 0 < ctx.digits) (hdigits : ctx'.digits < ctx.digits)
    (hx : 0 < x) (h : ctx'.Fits (ctx.rounded negative x)) :
    ∃ n : ℕ, ctx.rounded negative x = n * 10 ^ ctx'.place x := by
  obtain ⟨z, k, hvalue, hz, hk⟩ := h
  have hlast : z = 0 ∨ ctx'.place x ≤ k := by
    by_contra! hbelow
    obtain ⟨hne, hlt⟩ := hbelow
    have htiny := tiny_lt_tiny hdigits
    have hlog : k + ctx'.digits ≤ Int.log 10 x := by
      rw [place, lastPlace] at hlt
      omega
    have hplace := place_le_log hctx (x := x) (by omega)
    have hle : (10 : ℚ) ^ Int.log 10 x ≤ z * 10 ^ k :=
      hvalue ▸ zpow_le_rounded hplace (zpow_log_le hx)
    have hz' : (z : ℚ) < 10 ^ ctx'.digits := by
      have : (z.natAbs : ℤ) < 10 ^ ctx'.digits := by exact_mod_cast hz
      exact_mod_cast Int.le_natAbs.trans_lt this
    have hlt' : (z : ℚ) * 10 ^ k < 10 ^ Int.log 10 x :=
      calc (z : ℚ) * 10 ^ k < 10 ^ ctx'.digits * 10 ^ k :=
            mul_lt_mul_of_pos_right hz' (ten_zpow_pos k)
        _ = 10 ^ (k + ctx'.digits) := by rw [zpow_add₀ (by norm_num), zpow_natCast, mul_comm]
        _ ≤ 10 ^ Int.log 10 x := zpow_le_zpow_right₀ (by norm_num) hlog
    exact hle.not_gt hlt'
  have hnonneg : 0 ≤ z := by
    have : (0 : ℚ) ≤ z * 10 ^ k := hvalue ▸ ctx.rounded_nonneg negative x
    exact_mod_cast nonneg_of_mul_nonneg_left this (ten_zpow_pos k)
  rcases hlast with rfl | hlast
  · exact ⟨0, by rw [hvalue]; simp⟩
  · refine ⟨z.toNat * 10 ^ (k - ctx'.place x).toNat, ?_⟩
    have hcast : ((z.toNat : ℕ) : ℚ) = z := by exact_mod_cast Int.toNat_of_nonneg hnonneg
    rw [hvalue, ten_zpow_split hlast, tenTo_eq]
    push_cast
    rw [hcast]
    ring

theorem rounded_eq_of_fits_rounded (hctx : 0 < ctx.digits) (hdigits : ctx'.digits < ctx.digits)
    (hr : ctx.rounding.IsNearest) (hr' : ctx'.rounding.IsNearest) (hx : 0 ≤ x)
    (h : ctx'.Fits (ctx.rounded negative x)) :
    ctx'.rounded negative x = ctx.rounded negative x := by
  rcases hx.eq_or_lt with rfl | hpos
  · rw [rounded_zero, rounded_zero]
  obtain ⟨n, hn⟩ := exists_rounded_eq_mul_place hctx hdigits hpos h
  have hunit := ten_zpow_pos (ctx'.place x)
  -- half a unit of the wider context is a twentieth of one of the narrower
  have hsmall : (10 : ℚ) ^ ctx.place x ≤ 10 ^ ctx'.place x / 10 := by
    rw [div_eq_mul_inv, ← zpow_sub_one₀ (by norm_num)]
    exact zpow_le_zpow_right₀ (by norm_num) (by have := place_lt_place hdigits x; omega)
  have hnear : |(n : ℚ) - x / 10 ^ ctx'.place x| < 1 / 2 := by
    have habs := abs_rounded_sub_le hr negative hx
    have hfactor : (n : ℚ) - x / 10 ^ ctx'.place x =
        (ctx.rounded negative x - x) / 10 ^ ctx'.place x := by
      rw [hn]
      field_simp
    rw [hfactor, abs_div, abs_of_pos hunit, div_lt_iff₀ hunit]
    linarith
  rw [hn, rounded, kept, hr'.nearby_eq negative (div_nonneg hx hunit.le) hnear]

/-- A number that fits into fewer digits once it is rounded is rounded there at once. -/
theorem fit_eq_of_fits_fit (hctx : 0 < ctx.digits) (hdigits : ctx'.digits < ctx.digits)
    (hr : ctx.rounding.IsNearest) (hr' : ctx'.rounding.IsNearest) (h : ctx'.Fits (ctx.fit q)) :
    ctx'.fit q = ctx.fit q := by
  rw [fit] at h
  rw [fit, fit]
  split at h
  · rename_i hneg
    have hfits : ctx'.Fits (ctx.rounded true |q|) := by simpa using h.neg
    rw [if_pos hneg, if_pos hneg,
      rounded_eq_of_fits_rounded hctx hdigits hr hr' (abs_nonneg q) hfits]
  · rename_i hpos
    rw [if_neg hpos, if_neg hpos,
      rounded_eq_of_fits_rounded hctx hdigits hr hr' (abs_nonneg q) h]

end Reckon.Context
