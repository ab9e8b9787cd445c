import Mathlib.Algebra.Order.Round
import Reckon.Numeric.Apply
import Reckon.Proofs.RoundedOnce

/-!
# Rounding to integers

The largest integer below a number, the smallest above it and the number without its fractional part
are found exactly, whatever the size of the number (`Decimal.toRat?_floor`). The fractional part and
the absolute value are exact for numbers of as many digits as the plain context keeps, the nearest
integer for numbers of one digit less (`Unary.numeric_roundings`).
-/

namespace Reckon

open Decimal (signed digitCount ten_zpow_split)

/-! ### Integers -/

/-- The number without its fractional part. -/
def truncated (q : ℚ) : ℤ :=
  if 0 ≤ q then ⌊q⌋ else ⌈q⌉

namespace Decimal
variable {a : Decimal} {q : ℚ}

theorem toRat?_toIntegral (r : Rounding) (negative : Bool) (c : Nat) (e : Int) :
    ((finite negative c e).toIntegral r).toRat? =
      some ((signed negative (r.nearby negative (c * 10 ^ e)) : ℤ) : ℚ) := by
  have hfraction : (c : ℚ) * 10 ^ e = (c * 10 ^ e.toNat : ℕ) / (10 ^ (-e).toNat : ℕ) := by
    have hne : ((10 ^ (-e).toNat : ℕ) : ℚ) ≠ 0 := by exact_mod_cast (pow_toNat_pos _).ne'
    rw [eq_div_iff hne, Nat.cast_mul, cast_pow_toNat e, mul_assoc]
  rw [(alike_toIntegral_finite r negative c e).toRat?_eq, toRat?_finite, zpow_zero, mul_one,
    hfraction, Rounding.nearby_div _ _ _ (pow_toNat_pos _)]

theorem toRat?_floor (ha : a.toRat? = some q) :
    (a.toIntegral .floor).toRat? = some ((⌊q⌋ : ℤ) : ℚ) := by
  cases a with
  | infinite | nan => cases ha
  | finite negative c e =>
    rw [toRat?_finite, Option.some_inj] at ha
    have hnonneg : (0 : ℚ) ≤ c * 10 ^ e := mul_nonneg (Nat.cast_nonneg c) (ten_zpow_pos e).le
    rw [toRat?_toIntegral, Rounding.nearby_floor _ hnonneg, ← ha]
    congr 2
    cases negative with
    | false =>
      rw [signed_false, signed_false, if_neg (by decide), Int.natCast_floor_eq_floor hnonneg]
      rfl
    | true =>
      rw [signed_true, signed_true, if_pos rfl, Int.natCast_ceil_eq_ceil hnonneg]
      push_cast
      rw [neg_mul, Int.floor_neg]

theorem toRat?_ceil (ha : a.toRat? = some q) :
    (a.toIntegral .ceiling).toRat? = some ((⌈q⌉ : ℤ) : ℚ) := by
  cases a with
  | infinite | nan => cases ha
  | finite negative c e =>
    rw [toRat?_finite, Option.some_inj] at ha
    have hnonneg : (0 : ℚ) ≤ c * 10 ^ e := mul_nonneg (Nat.cast_nonneg c) (ten_zpow_pos e).le
    rw [toRat?_toIntegral, Rounding.nearby_ceiling _ hnonneg, ← ha]
    congr 2
    cases negative with
    | false =>
      rw [signed_false, signed_false, if_neg (by decide), Int.natCast_ceil_eq_ceil hnonneg]
      rfl
    | true =>
      rw [signed_true, signed_true, if_pos rfl, Int.natCast_floor_eq_floor hnonneg]
      push_cast
      rw [neg_mul, Int.ceil_neg]

theorem toRat?_truncated (ha : a.toRat? = some q) :
    (a.toIntegral .down).toRat? = some ((truncated q : ℤ) : ℚ) := by
  cases a with
  | infinite | nan => cases ha
  | finite negative c e =>
    rw [toRat?_finite, Option.some_inj] at ha
    have hnonneg : (0 : ℚ) ≤ c * 10 ^ e := mul_nonneg (Nat.cast_nonneg c) (ten_zpow_pos e).le
    rw [toRat?_toIntegral, Rounding.nearby_down _ hnonneg, ← ha, truncated]
    congr 2
    cases negative with
    | false =>
      rw [signed_false, signed_false, Int.natCast_floor_eq_floor hnonneg]
      exact (if_pos hnonneg).symm
    | true =>
      rw [signed_true, signed_true, Int.natCast_floor_eq_floor hnonneg]
      push_cast
      rw [neg_mul]
      split
      · rename_i hle
        rw [show (c : ℚ) * 10 ^ e = 0 by linarith, neg_zero, Int.floor_zero, neg_zero]
      · rw [Int.ceil_neg]

end Decimal

/-! ### The nearest integer -/

namespace Context
variable {q : ℚ}

theorem mul_zpow_eq_intCast (z : ℤ) {k : ℤ} (hk : 0 ≤ k) :
    (z : ℚ) * 10 ^ k = ((z * 10 ^ k.toNat : ℤ) : ℚ) := by
  rw [ten_zpow_split hk, sub_zero, zpow_zero, mul_one, tenTo_eq]
  push_cast
  rfl

/-- A multiple of the same power of ten that is no larger is held as well. -/
theorem Holds.of_natAbs_le {ctx : Context} {z w k : ℤ} (h : w.natAbs < 10 ^ ctx.digits)
    (hk : ctx.tiny ≤ k) (hle : |(z : ℚ) * 10 ^ k| ≤ |(w : ℚ) * 10 ^ k|)
    (hlt : |(w : ℚ) * 10 ^ k| < 10 ^ (maxExponent + 1)) : ctx.Holds (z * 10 ^ k) := by
  refine ⟨⟨z, k, rfl, lt_of_le_of_lt ?_ h, hk⟩, hle.trans_lt hlt⟩
  rw [abs_mul, abs_mul] at hle
  have hcast := le_of_mul_le_mul_right hle (abs_pos.mpr (ten_zpow_pos k).ne')
  rw [← Int.cast_abs, ← Int.cast_abs, ← Int.natCast_natAbs, ← Int.natCast_natAbs] at hcast
  exact_mod_cast hcast

/-- The fractional part of a number has no more digits than the number. -/
theorem Holds.sub_truncated {ctx : Context} (h : ctx.Holds q) : ctx.Holds (q - truncated q) := by
  obtain ⟨⟨z, k, rfl, hsmall, htiny⟩, hlt⟩ := h
  have hsize : ∀ x : ℚ, |x - truncated x| ≤ |x| := by
    intro x
    rw [truncated]
    split
    · rename_i hx
      have hfloor : (0 : ℚ) ≤ ⌊x⌋ := by exact_mod_cast Int.floor_nonneg.mpr hx
      rw [abs_of_nonneg hx, abs_of_nonneg (sub_nonneg.mpr (Int.floor_le x))]
      linarith
    · rename_i hx
      have hceil : (⌈x⌉ : ℚ) ≤ 0 := by
        exact_mod_cast Int.ceil_le.mpr (by exact_mod_cast (not_le.mp hx).le)
      rw [abs_of_neg (not_le.mp hx), abs_of_nonpos (sub_nonpos.mpr (Int.le_ceil x))]
      linarith
  rcases le_or_gt 0 k with hk | hk
  · have hint := mul_zpow_eq_intCast z hk
    have hzero : (z : ℚ) * 10 ^ k - truncated (z * 10 ^ k) = (0 : ℤ) * 10 ^ k := by
      rw [hint, truncated, Int.floor_intCast, Int.ceil_intCast, ite_self]
      simp
    rw [hzero]
    refine .of_natAbs_le hsmall htiny ?_ hlt
    rw [Int.cast_zero, zero_mul, abs_zero]
    exact abs_nonneg _
  · have hpow : (10 : ℚ) ^ (-k).toNat * 10 ^ k = 1 := by
      rw [← zpow_natCast, ← zpow_add₀ (by norm_num), Int.toNat_of_nonneg (by omega)]
      simp
    have hdigits : (z : ℚ) * 10 ^ k - truncated (z * 10 ^ k) =
        ((z - truncated (z * 10 ^ k) * 10 ^ (-k).toNat : ℤ) : ℚ) * 10 ^ k := by
      push_cast
      rw [sub_mul, mul_assoc _ _ ((10 : ℚ) ^ k), hpow, mul_one]
    have hle := hsize (z * 10 ^ k)
    rw [hdigits] at hle ⊢
    exact .of_natAbs_le hsmall htiny hle hlt

/-- One digit is enough for half a unit more. -/
theorem holds_add_half {z k : ℤ} (hsmall : z.natAbs < 10 ^ 27) (hlast : -28 ≤ k)
    (hlt : |(z : ℚ) * 10 ^ k + 1 / 2| < 10 ^ (27 : ℤ)) : plain.Holds (z * 10 ^ k + 1 / 2) := by
  have hsize : |(z : ℚ) * 10 ^ k + 1 / 2| < 10 ^ (maxExponent + 1) :=
    hlt.trans_le (zpow_le_zpow_right₀ (by norm_num) (by decide))
  have htiny : plain.tiny = -1000026 := rfl
  rcases lt_or_ge k 0 with hk | hk
  · obtain ⟨j, hj⟩ : ∃ j : ℕ, k = -(j + 1) := ⟨(-k - 1).toNat, by omega⟩
    have hhalf : ((5 * 10 ^ j : ℤ) : ℚ) * 10 ^ k = 1 / 2 := by
      rw [hj, zpow_neg, zpow_add₀ (by norm_num), zpow_natCast]
      push_cast
      field_simp
      norm_num
    refine ⟨⟨z + 5 * 10 ^ j, k, ?_, ?_, by omega⟩, hsize⟩
    · rw [← hhalf]
      push_cast
      ring
    · have hpow : 10 ^ j ≤ 10 ^ 27 := Nat.pow_le_pow_right (by decide) (by omega)
      have hcast : ((5 * 10 ^ j : ℤ)).natAbs = 5 * 10 ^ j := by norm_cast
      have hsum := Int.natAbs_add_le z (5 * 10 ^ j)
      rw [hcast] at hsum
      rw [show plain.digits = 28 from rfl]
      omega
  · rw [mul_zpow_eq_intCast z hk] at hlt hsize ⊢
    refine ⟨⟨10 * (z * 10 ^ k.toNat) + 5, -1, ?_, ?_, by omega⟩, hsize⟩
    · push_cast
      ring
    · obtain ⟨hlow, hhigh⟩ := abs_lt.mp hlt
      have hlow' : -10 ^ 28 < 10 * (z * 10 ^ k.toNat) + 5 := by
        have : (-10 ^ 28 : ℚ) < 10 * ((z * 10 ^ k.toNat : ℤ) : ℚ) + 5 := by
          norm_num at hlow ⊢
          linarith
        exact_mod_cast this
      have hhigh' : 10 * (z * 10 ^ k.toNat) + 5 < 10 ^ 28 := by
        have : 10 * ((z * 10 ^ k.toNat : ℤ) : ℚ) + 5 < 10 ^ 28 := by
          norm_num at hhigh ⊢
          linarith
        exact_mod_cast this
      rw [show plain.digits = 28 from rfl]
      omega

/-- A number that is halfway to an even number of last places, or closer, is rounded to that. -/
theorem fit_eq_of_even {ctx : Context} (hr : ctx.rounding = .halfEven) {z : ℤ} (hz : z % 2 = 0)
    (hnear : |z * 10 ^ ctx.place |q| - q| ≤ 10 ^ ctx.place |q| / 2) :
    ctx.fit q = z * 10 ^ ctx.place |q| := by
  obtain ⟨p, hp⟩ : ∃ p, p = ctx.place |q| := ⟨_, rfl⟩
  have hunit := ten_zpow_pos p
  rw [← hp] at hnear ⊢
  have hdistance : |(z.natAbs : ℚ) - |q| / 10 ^ p| ≤ 1 / 2 := by
    have hsize : (z.natAbs : ℚ) - |q| / 10 ^ p = (|(z : ℚ) * 10 ^ p| - |q|) / 10 ^ p := by
      rw [Nat.cast_natAbs, Int.cast_abs, abs_mul, abs_of_pos hunit]
      field_simp
    rw [hsize, abs_div, abs_of_pos hunit, div_le_iff₀ hunit]
    exact (abs_abs_sub_abs_le _ _).trans (hnear.trans_eq (by rw [div_mul_eq_mul_div, one_mul]))
  have hrounded : ∀ negative, ctx.rounded negative |q| = |(z : ℚ)| * 10 ^ p := by
    intro negative
    rw [rounded, kept, ← hp, hr, Rounding.nearby_halfEven_of_even negative (by positivity)
      (by omega) hdistance, Nat.cast_natAbs, Int.cast_abs]
  obtain ⟨hlow, hhigh⟩ := abs_le.mp hnear
  rw [fit, hrounded, hrounded]
  split
  · have hlt : (z : ℚ) * 10 ^ p < (1 : ℤ) * 10 ^ p := by
      push_cast
      linarith
    have hsign := Int.cast_lt.mp (lt_of_mul_lt_mul_right hlt hunit.le)
    rw [abs_of_nonpos (by exact_mod_cast Int.lt_add_one_iff.mp hsign), neg_mul, neg_neg]
  · have hlt : ((-1 : ℤ) : ℚ) * 10 ^ p < z * 10 ^ p := by
      push_cast
      linarith
    have hsign := Int.cast_lt.mp (lt_of_mul_lt_mul_right hlt hunit.le)
    rw [abs_of_nonneg (by exact_mod_cast hsign)]

theorem abs_add_half_sub_abs_le (q : ℚ) : |(|q + 1 / 2|) - (|q|)| ≤ 1 / 2 := by
  refine (abs_abs_sub_abs_le _ _).trans ?_
  rw [add_sub_cancel_left, abs_of_pos (by norm_num)]

/-- The last place that is kept of half a unit more than a large integer is one of the zeros of the
integer. -/
theorem place_add_half {z k : ℤ} (hsmall : z.natAbs < 10 ^ 27) (hk : 0 ≤ k)
    (hlarge : 10 ^ (27 : ℤ) ≤ |(z : ℚ) * 10 ^ k + 1 / 2|) :
    0 ≤ plain.place |(z : ℚ) * 10 ^ k + 1 / 2| ∧ plain.place |(z : ℚ) * 10 ^ k + 1 / 2| < k := by
  have hpos := (ten_zpow_pos 27).trans_le hlarge
  have hdigits : plain.digits = 28 := rfl
  have htiny : plain.tiny = -1000026 := rfl
  have hlt : |(z : ℚ) * 10 ^ k + 1 / 2| < ((10 : ℕ) : ℚ) ^ (k + 27) := by
    have hone : (1 : ℚ) ≤ 10 ^ k := one_le_zpow₀ (by norm_num) hk
    have hcoefficient : |(z : ℚ)| + 1 ≤ 10 ^ (27 : ℤ) := by
      rw [← Int.cast_abs, ← Int.natCast_natAbs]
      exact_mod_cast hsmall
    have hnear := (abs_le.mp (abs_add_half_sub_abs_le ((z : ℚ) * 10 ^ k))).2
    rw [abs_mul, abs_of_pos (ten_zpow_pos k)] at hnear
    have := mul_le_mul_of_nonneg_left hcoefficient (ten_zpow_pos k).le
    rw [Nat.cast_ofNat, zpow_add₀ (by norm_num)]
    linarith
  have hfirst := (Int.zpow_le_iff_le_log (b := 10) (by decide) hpos).mp hlarge
  have hlast := (Int.lt_zpow_iff_log_lt (by decide) hpos).mp hlt
  rw [place, lastPlace, hdigits, htiny]
  constructor <;> omega

/-- Half a unit more than a large integer is rounded to the integer again, whose last digit is
even. -/
theorem fit_add_half {z k : ℤ} (hsmall : z.natAbs < 10 ^ 27) (hk : 0 ≤ k)
    (hlarge : 10 ^ (27 : ℤ) ≤ |(z : ℚ) * 10 ^ k + 1 / 2|) :
    plain.fit (z * 10 ^ k + 1 / 2) = z * 10 ^ k := by
  obtain ⟨hfirst, hlast⟩ := place_add_half hsmall hk hlarge
  obtain ⟨p, hp⟩ : ∃ p, p = plain.place |(z : ℚ) * 10 ^ k + 1 / 2| := ⟨_, rfl⟩
  rw [← hp] at hfirst hlast
  obtain ⟨j, hj⟩ : ∃ j : ℕ, k = p + (j + 1) := ⟨(k - p - 1).toNat, by omega⟩
  have hmultiple : (z : ℚ) * 10 ^ k = (z * 10 ^ (j + 1) : ℤ) * 10 ^ p := by
    rw [hj, zpow_add₀ (by norm_num)]
    push_cast
    rw [← zpow_natCast]
    push_cast
    ring
  have heven : z * 10 ^ (j + 1) % 2 = 0 := by
    rw [pow_succ, ← Int.mul_assoc]
    omega
  have hunit : (1 : ℚ) ≤ 10 ^ p := one_le_zpow₀ (by norm_num) hfirst
  have hfit : plain.fit (z * 10 ^ k + 1 / 2) = _ := fit_eq_of_even rfl heven (by
    rw [← hp, ← hmultiple, sub_add_cancel_left, abs_neg, abs_of_pos (by norm_num)]
    linarith)
  rw [hfit, ← hp, ← hmultiple]

theorem floor_fit_add_half_of_small (hq : |q| ≤ 1 / 100) :
    ⌊plain.fit (q + 1 / 2)⌋ = ⌊q + 1 / 2⌋ ∧ |plain.fit (q + 1 / 2)| < 10 ^ (maxExponent + 1) := by
  obtain ⟨hlow, hhigh⟩ := abs_le.mp hq
  have hpos : 0 < q + 1 / 2 := by linarith
  have hnear : |plain.fit (q + 1 / 2) - (q + 1 / 2)| ≤ 5 * 10 ^ (-29 : ℤ) := by
    have hlt : |q + 1 / 2| < 10 ^ (-1 + 1 : ℤ) := by
      rw [abs_of_pos hpos]
      norm_num
      linarith
    refine (abs_fit_sub_le_zpow (.inl rfl) (by decide) hlt).trans_eq ?_
    rw [show plain.digits = 28 from rfl]
    norm_num
  have htiny : (5 : ℚ) * 10 ^ (-29 : ℤ) ≤ 1 / 100 := by norm_num
  obtain ⟨hfit, hfit'⟩ := abs_le.mp hnear
  have hmax : (1 : ℚ) ≤ 10 ^ (maxExponent + 1) := one_le_zpow₀ (by norm_num) (by decide)
  have hzero : ⌊q + 1 / 2⌋ = 0 := Int.floor_eq_zero_iff.mpr ⟨by linarith, by linarith⟩
  rw [hzero, Int.floor_eq_zero_iff, abs_lt]
  refine ⟨⟨?_, ?_⟩, ?_, ?_⟩ <;> linarith

/-- Half a unit more than a number of one digit less than are kept is rounded to a number with the
same integer part. -/
theorem floor_fit_add_half (h : (⟨27, .halfEven⟩ : Context).Holds q) :
    ⌊plain.fit (q + 1 / 2)⌋ = ⌊q + 1 / 2⌋ ∧ |plain.fit (q + 1 / 2)| < 10 ^ (maxExponent + 1) := by
  obtain ⟨⟨z, k, rfl, hsmall, -⟩, hlt⟩ := h
  have hsize : ∀ {i : ℤ}, k ≤ i → |(z : ℚ) * 10 ^ k| ≤ 10 ^ (27 + i) := by
    intro i hi
    have hcoefficient : |(z : ℚ)| ≤ 10 ^ (27 : ℤ) := by
      rw [← Int.cast_abs, ← Int.natCast_natAbs]
      exact_mod_cast hsmall.le
    rw [abs_mul, abs_of_pos (ten_zpow_pos k), zpow_add₀ (by norm_num)]
    exact mul_le_mul hcoefficient (zpow_le_zpow_right₀ (by norm_num) hi) (ten_zpow_pos k).le
      (ten_zpow_pos _).le
  rcases lt_or_ge k (-28) with htiny | hlast
  · exact floor_fit_add_half_of_small
      ((hsize (show k ≤ -29 by omega)).trans_eq (by norm_num))
  by_cases hrange : |(z : ℚ) * 10 ^ k + 1 / 2| < 10 ^ (27 : ℤ)
  · have hholds := holds_add_half hsmall hlast hrange
    rw [hholds.1.fit_eq]
    exact ⟨rfl, hholds.2⟩
  · have hk : 0 ≤ k := by
      by_contra hneg
      have hnear := (abs_le.mp (abs_add_half_sub_abs_le ((z : ℚ) * 10 ^ k))).2
      have hsmall' : |(z : ℚ) * 10 ^ k| ≤ 10 ^ (26 : ℤ) := hsize (show k ≤ -1 by omega)
      have hten : (10 : ℚ) ^ (26 : ℤ) + 1 / 2 < 10 ^ (27 : ℤ) := by norm_num
      exact hrange (by linarith)
    rw [fit_add_half hsmall hk (not_lt.mp hrange)]
    refine ⟨?_, hlt⟩
    rw [mul_zpow_eq_intCast z hk, Int.floor_intCast, Int.floor_intCast_add]
    norm_num

/-- Half a unit more than an odd integer that has all digits that are kept. -/
theorem fit_add_half_of_odd {z : ℤ} (hodd : z % 2 = 1) (hlow : 10 ^ 27 < z.natAbs)
    (hhigh : z.natAbs < 10 ^ 28) : plain.fit (z + 1 / 2) = (z + 1 : ℤ) := by
  have hplace : plain.place |(z : ℚ) + 1 / 2| = 0 := by
    have hcast : ((z.natAbs : ℕ) : ℚ) = |(z : ℚ)| := by rw [Nat.cast_natAbs, Int.cast_abs]
    have hlow' : (10 ^ 27 : ℚ) + 1 ≤ |(z : ℚ)| := by
      rw [← hcast]
      exact_mod_cast hlow
    have hhigh' : |(z : ℚ)| + 1 ≤ 10 ^ 28 := by
      rw [← hcast]
      exact_mod_cast hhigh
    obtain ⟨hnear, hnear'⟩ := abs_le.mp (abs_add_half_sub_abs_le (z : ℚ))
    have hfirst : (10 : ℚ) ^ 27 ≤ |(z : ℚ) + 1 / 2| := by linarith
    have hnext : |(z : ℚ) + 1 / 2| < 10 ^ 28 := by linarith
    have hlog : Int.log 10 |(z : ℚ) + 1 / 2| = 27 := log_eq_of_zpow hfirst hnext
    rw [place, hlog]
    rfl
  have heven : (z + 1) % 2 = 0 := by omega
  have hfit : plain.fit (z + 1 / 2) = _ := fit_eq_of_even rfl heven (by
    rw [hplace, zpow_zero, mul_one]
    push_cast
    rw [add_sub_add_left_eq_sub, abs_of_pos (by norm_num)]
    norm_num)
  rw [hfit, hplace, zpow_zero, mul_one]

end Context

/-! ### Operators -/

/-- The computation comes to the number `q`. -/
def Numeric.ComesTo (r : Except Failure Decimal) (q : ℚ) : Prop :=
  ∃ a, r = .ok a ∧ a.toRat? = some q

namespace Unary

open Numeric (ComesTo)

section
variable [Binary64.Library] {a : Decimal} {q : ℚ}

theorem comesTo_floor (ha : a.toRat? = some q) : ComesTo (floor.numeric a) ⌊q⌋ :=
  ⟨_, rfl, Decimal.toRat?_floor ha⟩

theorem comesTo_ceil (ha : a.toRat? = some q) : ComesTo (ceil.numeric a) ⌈q⌉ :=
  ⟨_, rfl, Decimal.toRat?_ceil ha⟩

theorem comesTo_abs (ha : a.toRat? = some q) (hq : Context.plain.Holds q) :
    ComesTo (abs.numeric a) |q| := by
  obtain ⟨r, hr, hvalue⟩ := (Decimal.rounds_abs (by decide) ha).exact hq.abs
  refine ⟨r, ?_, hvalue⟩
  rw [numeric, hr]
  rfl

theorem comesTo_fpart (ha : a.toRat? = some q) (hq : Context.plain.Holds q) :
    ComesTo (fpart.numeric a) (q - truncated q) := by
  obtain ⟨r, hr, hvalue⟩ :=
    (Decimal.rounds_sub (by decide) ha (Decimal.toRat?_truncated ha)).exact hq.sub_truncated
  refine ⟨r, ?_, hvalue⟩
  rw [numeric, Numeric.fpart, hr]
  rfl

/-- The sum with a half is rounded, then the largest integer below is taken. -/
theorem comesTo_round_of_fit (ha : a.toRat? = some q)
    (hrange : |Context.plain.fit (q + 1 / 2)| < 10 ^ (Context.maxExponent + 1)) :
    ComesTo (round.numeric a) ⌊Context.plain.fit (q + 1 / 2)⌋ := by
  have hhalf : Decimal.half.toRat? = some (1 / 2) := by
    rw [Decimal.half, Decimal.toRat?_finite]
    norm_num [signed]
  have hrounds : Context.plain.Rounds (q + 1 / 2) (Decimal.add .plain a .half) :=
    Decimal.rounds_add (by decide) ha hhalf
  rw [Context.Rounds, if_pos hrange] at hrounds
  obtain ⟨r, hr, hvalue⟩ := hrounds
  refine ⟨r.toIntegral .floor, ?_, Decimal.toRat?_floor hvalue⟩
  rw [numeric, Numeric.round, hr]
  rfl

theorem comesTo_round (ha : a.toRat? = some q) (hq : (⟨27, .halfEven⟩ : Context).Holds q) :
    ComesTo (round.numeric a) ⌊q + 1 / 2⌋ := by
  obtain ⟨hfloor, hrange⟩ := Context.floor_fit_add_half hq
  rw [← hfloor]
  exact comesTo_round_of_fit ha hrange

/-- For an odd integer with one digit more the next one is found: half a unit more is just between
two numbers that are kept, and the even one of them is taken. -/
theorem comesTo_round_of_odd {z : ℤ} (ha : a.toRat? = some (z : ℚ)) (hodd : z % 2 = 1)
    (hlow : 10 ^ 27 < z.natAbs) (hhigh : z.natAbs < 10 ^ 28) :
    ComesTo (round.numeric a) (z + 1 : ℤ) := by
  have hfit := Context.fit_add_half_of_odd hodd hlow hhigh
  have hrange : |Context.plain.fit (z + 1 / 2)| < 10 ^ (Context.maxExponent + 1) := by
    have hle : |z + 1| ≤ 10 ^ 28 := abs_le.mpr ⟨by omega, by omega⟩
    have hle' : |((z + 1 : ℤ) : ℚ)| ≤ 10 ^ (28 : ℤ) := by
      rw [← Int.cast_abs]
      exact_mod_cast hle
    rw [hfit]
    exact hle'.trans_lt (zpow_lt_zpow_right₀ (by norm_num) (by decide))
  have h := comesTo_round_of_fit ha hrange
  rwa [hfit, Int.floor_intCast] at h

/-- The integers around a number are exact. So are the fractional part and the absolute value of a
number of 28 digits, and the nearest integer to a number of 27 digits; but what is found for an odd
integer of 28 digits is the next one. -/
theorem numeric_roundings (ha : a.toRat? = some q) :
    ComesTo (floor.numeric a) ⌊q⌋ ∧ ComesTo (ceil.numeric a) ⌈q⌉ ∧
    (Context.plain.Holds q →
      ComesTo (fpart.numeric a) (q - truncated q) ∧ ComesTo (abs.numeric a) |q|) ∧
    ((⟨27, .halfEven⟩ : Context).Holds q → ComesTo (round.numeric a) ⌊q + 1 / 2⌋) ∧
    ∀ z : ℤ, q = z → z % 2 = 1 → 10 ^ 27 < z.natAbs → z.natAbs < 10 ^ 28 →
      ComesTo (round.numeric a) (z + 1 : ℤ) :=
  ⟨comesTo_floor ha, comesTo_ceil ha, fun hq => ⟨comesTo_fpart ha hq, comesTo_abs ha hq⟩,
    comesTo_round ha, fun _ hz => comesTo_round_of_odd (by rw [ha, hz])⟩

end

/-- The operators at `-2.5`. -/
theorem numeric_roundings_fraction :
    ∃ a : Decimal, a.toRat? = some (-(5 / 2)) ∧
      ComesTo (floor.numeric a) (-3) ∧ ComesTo (ceil.numeric a) (-2) ∧
      ComesTo (round.numeric a) (-2) ∧ ComesTo (fpart.numeric a) (-(1 / 2)) ∧
      ComesTo (abs.numeric a) (5 / 2) := by
  have ha : (Decimal.finite true 25 (-1)).toRat? = some (-(5 / 2)) := by
    rw [Decimal.toRat?_finite]
    norm_num [signed]
  have hmax : |(-(5 / 2) : ℚ)| < 10 ^ (Context.maxExponent + 1) := by
    have : (10 : ℚ) ^ (1 : ℤ) ≤ 10 ^ (Context.maxExponent + 1) :=
      zpow_le_zpow_right₀ (by norm_num) (by decide)
    norm_num at this ⊢
    linarith
  have hvalue : (-(5 / 2) : ℚ) = (-25 : ℤ) * 10 ^ (-1 : ℤ) := by norm_num
  obtain ⟨hfloor, hceil, hplain, hround, -⟩ := numeric_roundings ha
  obtain ⟨hfpart, habs⟩ := hplain ⟨⟨-25, -1, hvalue, by decide, by decide⟩, hmax⟩
  have hnearest := hround ⟨⟨-25, -1, hvalue, by decide, by decide⟩, hmax⟩
  refine ⟨_, ha, ?_, ?_, ?_, ?_, ?_⟩
  · norm_num at hfloor
    exact hfloor
  · norm_num at hceil
    exact hceil
  · norm_num at hnearest
    exact hnearest
  · rw [truncated, if_neg (by norm_num)] at hfpart
    norm_num at hfpart
    exact hfpart
  · norm_num at habs
    exact habs

end Unary

end Reckon
