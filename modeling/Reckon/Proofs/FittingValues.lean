import Reckon.Numeric.Root
import Reckon.Proofs.AlikeDoubles
import Reckon.Proofs.FiniteNumbers
import Reckon.Proofs.RoundedTwice

/-!
# Values that fit

Powers with an integer exponent are rounded to working precision, and the shortest decimal of a
double has at most eighteen digits. So a power that is an integer fits into the working context
(`Numeric.yields_fitsIn_power`), and so does any square root (`Numeric.yields_fitsIn_sqrt`).
-/

namespace Reckon

open Decimal (digitCount)

namespace Decimal
variable {ctx : Context} {a : Decimal} {q : ℚ}

/-- The number, if it is one, fits into the context. -/
def FitsIn (ctx : Context) (a : Decimal) : Prop :=
  ∀ q, a.toRat? = some q → ctx.Fits q

theorem fitsIn_of_toRat? (ha : a.toRat? = some q) (hq : ctx.Fits q) : a.FitsIn ctx := by
  intro r hr
  rwa [← Option.some_inj.mp (ha.symm.trans hr)]

theorem yields_fitsIn_round (hctx : 0 < ctx.digits) (negative : Bool) (c : Nat) (e : Int) :
    Yields (FitsIn ctx) (ctx.round negative c e) := by
  intro a ha
  exact fitsIn_of_toRat? ((Context.rounds_round hctx negative c e).toRat?_eq ha)
    (Context.fits_fit hctx _)

theorem fitsIn_infinite (negative : Bool) : (infinite negative).FitsIn ctx :=
  fun _ h => by cases h

theorem fitsIn_nan : nan.FitsIn ctx :=
  fun _ h => by cases h

theorem fitsIn_zero (negative : Bool) (e : Int) : (finite negative 0 e).FitsIn ctx :=
  fitsIn_of_toRat? (by cases negative <;> simp [toRat?_finite, signed]) ctx.fits_zero

/-- An integer fits if its digits do. -/
theorem fitsIn_of_isIntegral {z k : ℤ} (htiny : ctx.tiny ≤ 0)
    (ha : a.toRat? = some ((z : ℚ) * 10 ^ k)) (hz : z.natAbs < 10 ^ ctx.digits)
    (hint : a.isIntegral = true) : a.FitsIn ctx := by
  refine fitsIn_of_toRat? ha ?_
  rcases Int.le_total 0 k with hk | hk
  · exact ⟨z, k, rfl, hz, htiny.trans hk⟩
  obtain ⟨j, hj⟩ := exists_of_isIntegral hint
  have hvalue : (z : ℚ) * 10 ^ k = j := Option.some_inj.mp (ha.symm.trans hj)
  refine ⟨j, 0, by rw [hvalue, zpow_zero, mul_one], lt_of_le_of_lt ?_ hz, htiny⟩
  have hle : |(j : ℚ)| ≤ |(z : ℚ)| := by
    rw [← hvalue, abs_mul, abs_of_pos (ten_zpow_pos k)]
    exact mul_le_of_le_one_right (abs_nonneg _) (zpow_le_one_of_nonpos₀ (by norm_num) hk)
  rw [← Int.cast_abs, ← Int.cast_abs, Int.abs_eq_natAbs, Int.abs_eq_natAbs] at hle
  exact_mod_cast hle

/-! ### Integer powers -/

/-- One is the power of one, however many zeros it is written with. -/
theorem toRat?_powerOfUnit (negative : Bool) (e n : Int) :
    (powerOfUnit ctx negative e n).toRat? = some ((signed negative 1 : ℤ) : ℚ) := by
  rw [powerOfUnit]
  split
  · rw [toRat?_finite, zpow_zero, mul_one]
  · have hone : ((tenTo (min (-e * n).toNat (ctx.digits - 1)) : ℕ) : ℚ) *
        10 ^ (-(min (-e * n).toNat (ctx.digits - 1) : ℕ) : ℤ) = (1 : ℕ) * 10 ^ (0 : ℤ) := by
      rw [tenTo_eq, cast_ten_pow, ← zpow_add₀ (by norm_num)]
      simp
    rw [toRat?_eq_of_mul_zpow_eq negative hone, toRat?_finite, zpow_zero, mul_one]

theorem fits_signed_one (hctx : 0 < ctx.digits) (htiny : ctx.tiny ≤ 0) (negative : Bool) :
    ctx.Fits ((signed negative 1 : ℤ) : ℚ) := by
  refine ⟨signed negative 1, 0, by simp, ?_, htiny⟩
  rw [natAbs_signed]
  exact Nat.one_lt_pow hctx.ne' (by decide)

theorem fitsIn_one (hctx : 0 < ctx.digits) (htiny : ctx.tiny ≤ 0) : one.FitsIn ctx :=
  fitsIn_of_toRat? (by rw [one, ofNat, toRat?_finite, zpow_zero, mul_one])
    (fits_signed_one hctx htiny false)

theorem yields_fitsIn_power (hctx : 0 < ctx.digits) (htiny : ctx.tiny ≤ 0) (a : Decimal) (n : Int) :
    Yields (FitsIn ctx) (power ctx a n) := by
  have hone := fitsIn_one hctx htiny
  cases a with
  | nan => exact yields_ok.mpr fitsIn_nan
  | infinite negative =>
    simp only [power, yields_ite, yields_ok, hone, fitsIn_zero, fitsIn_infinite, implies_true,
      and_self]
  | finite negative c e =>
    simp only [power, yields_ite, yields_ok, yields_error, hone, fitsIn_zero, fitsIn_infinite,
      implies_true, and_true, true_and]
    refine fun _ _ => ⟨fun _ => fitsIn_of_toRat? (toRat?_powerOfUnit _ e n)
      (fits_signed_one hctx htiny _), fun _ => ?_⟩
    refine ⟨fun _ => yields_bind fun _ => yields_bind fun r => ?_, fun _ => yields_bind fun r => ?_⟩
    all_goals
      cases r with
      | finite => exact yields_fitsIn_round hctx _ _ _
      | infinite => exact yields_ok.mpr (fitsIn_infinite _)
      | nan => exact yields_ok.mpr fitsIn_nan

end Decimal

/-! ### Doubles -/

namespace Binary64

theorem shortest_trim_le (c n : Nat) : (shortest.trim c n).1 ≤ c := by
  fun_induction shortest.trim c n with
  | case1 c => exact le_rfl
  | case2 c n hc ih => exact ih.trans (Nat.div_le_self c 10)
  | case3 c n hc => exact le_rfl

/-- A fraction is at most the power of ten after that of its first digit. -/
theorem le_mul_zpow_leadingPower (n : Nat) {d : Nat} (hd : 0 < d) :
    (n : ℚ) ≤ d * 10 ^ (leadingPower n d + 1) := by
  have hdpos : (0 : ℚ) < d := by exact_mod_cast hd
  rw [leadingPower]
  split
  · rename_i hle
    have hne : n / d ≠ 0 := (Nat.div_pos hle hd).ne'
    obtain ⟨m, hcount, -, hlt⟩ := Decimal.exists_digitCount hne
    rw [hcount, sub_add_cancel, ← cast_ten_pow]
    have hlt' : n < 10 ^ (m + 1) * d := by rwa [Nat.div_lt_iff_lt_mul hd] at hlt
    have hlt'' : (n : ℚ) < (10 ^ (m + 1) : ℕ) * d := by exact_mod_cast hlt'
    linarith
  · rename_i hlt
    rcases Nat.eq_zero_or_pos n with rfl | hn
    · rw [Nat.cast_zero]
      exact mul_nonneg hdpos.le (ten_zpow_pos _).le
    have hne : d / n ≠ 0 := (Nat.div_pos (not_le.mp hlt).le hn).ne'
    obtain ⟨m, hcount, hle, -⟩ := Decimal.exists_digitCount hne
    have hle' : 10 ^ m * n ≤ d := (Nat.le_div_iff_mul_le hn).mp hle
    have hle'' : (10 : ℚ) ^ m * n ≤ d := by exact_mod_cast hle'
    rw [hcount, show -((m + 1 : ℕ) : ℤ) + 1 = -(m : ℤ) by push_cast; ring, zpow_neg, zpow_natCast,
      ← div_eq_mul_inv, le_div_iff₀ (by positivity)]
    linarith

/-- A decimal that is tried has no more digits than asked for, or is the power of ten with one
more. -/
theorem Neighbourhood.candidate?_le {h : Neighbourhood} {count c : Nat} {k : Int}
    (hden : 0 < h.denominator)
    (hc : h.candidate? (leadingPower h.value h.denominator) count = some (c, k)) :
    c ≤ 10 ^ count + 1 := by
  obtain ⟨j, hj⟩ : ∃ j : ℤ, j = leadingPower h.value h.denominator + 1 - count := ⟨_, rfl⟩
  have hd : 0 < h.denominator * 10 ^ j.toNat := Nat.mul_pos hden (pow_toNat_pos _)
  have hquotient :
      h.value * 10 ^ (-j).toNat / (h.denominator * 10 ^ j.toNat) ≤ 10 ^ count := by
    refine Nat.div_le_of_le_mul ?_
    have hvalue := le_mul_zpow_leadingPower h.value hden
    have hpow := cast_pow_toNat j
    rw [show leadingPower h.value h.denominator + 1 = j + count by omega,
      zpow_add₀ (by norm_num), zpow_natCast] at hvalue
    have hle : (h.value : ℚ) * (10 ^ (-j).toNat : ℕ) ≤
        h.denominator * (10 ^ j.toNat : ℕ) * 10 ^ count := by
      rw [hpow]
      calc (h.value : ℚ) * (10 ^ (-j).toNat : ℕ) ≤
            h.denominator * (10 ^ j * 10 ^ count) * (10 ^ (-j).toNat : ℕ) :=
            mul_le_mul_of_nonneg_right hvalue (Nat.cast_nonneg _)
        _ = _ := by ring
    exact_mod_cast hle
  have hnearer := Rounding.halfEven.quotient_le_add_one false
    (h.value * 10 ^ (-j).toNat) (h.denominator * 10 ^ j.toNat)
  simp only [candidate?, ← hj, tenTo_eq] at hc
  split_ifs at hc
  all_goals
    simp only [Option.some.injEq, Prod.mk.injEq] at hc
    omega

theorem neighbourhood_denominator_pos (m : Nat) (e : Int) :
    0 < (neighbourhood m e).denominator :=
  Nat.mul_pos (by decide) (twoTo_pos _)

/-- The shortest decimal of a double is short. -/
theorem shortest_lt (m : Nat) (e : Int) : (shortest m e).1 < 10 ^ 18 := by
  rw [shortest]
  split
  · rename_i c k hfound
    obtain ⟨count, hmem, hc⟩ := List.exists_of_findSome?_eq_some hfound
    have hcount : count ≤ 17 := by
      obtain ⟨i, hi, rfl⟩ := List.mem_map.mp hmem
      rw [List.mem_range] at hi
      omega
    calc (shortest.trim c (digitCount c)).1 ≤ c := shortest_trim_le _ _
      _ ≤ 10 ^ count + 1 := Neighbourhood.candidate?_le (neighbourhood_denominator_pos m e) hc
      _ ≤ 10 ^ 17 + 1 := Nat.succ_le_succ (Nat.pow_le_pow_right (by decide) hcount)
      _ < 10 ^ 18 := by decide
  · exact Nat.pow_pos (by decide)

theorem exists_toRat?_toDecimal (negative : Bool) (m : Nat) (e : Int) :
    ∃ (c : ℕ) (k : ℤ), c < 10 ^ 18 ∧
      (toDecimal (.finite negative m e)).toRat? =
        some ((Decimal.signed negative c : ℚ) * 10 ^ k) := by
  by_cases hm : m = 0
  · refine ⟨0, -1, by decide, ?_⟩
    simp only [toDecimal, hm, ↓reduceIte, Decimal.toRat?_finite]
  refine ⟨(shortest m e).1, (shortest m e).2, shortest_lt m e, ?_⟩
  simp only [toDecimal, hm, ↓reduceIte]
  split
  · rename_i hk
    rw [← Decimal.toRat?_finite]
    refine Decimal.toRat?_eq_of_mul_zpow_eq negative ?_
    have hpow : (10 : ℚ) ^ ((shortest m e).2.toNat + 1) = 10 ^ (shortest m e).2 * 10 := by
      rw [pow_succ, ← zpow_natCast, Int.toNat_of_nonneg hk.1]
    rw [tenTo_eq]
    push_cast
    rw [hpow]
    ring
  · rw [Decimal.toRat?_finite]

end Binary64

/-! ### Numeric functions -/

namespace Numeric

open Decimal (FitsIn fitsIn_of_isIntegral)

theorem yields_fitsIn_widen (op : String) (x : Binary64) :
    Yields (fun v => v.isIntegral = true → v.FitsIn .working) (widen op x) := by
  cases x with
  | infinite | nan => exact yields_error _
  | finite negative m e =>
    refine yields_ok.mpr fun hint => ?_
    obtain ⟨c, k, hc, hvalue⟩ := Binary64.exists_toRat?_toDecimal negative m e
    refine fitsIn_of_isIntegral (by decide) hvalue ?_ hint
    rw [Decimal.natAbs_signed]
    exact hc.trans (by decide)

/-- A power that is an integer fits. -/
theorem yields_fitsIn_power [Binary64.Library] (a b : Decimal) :
    Yields (fun v => v.isIntegral = true → v.FitsIn .working) (power a b) := by
  rw [power]
  refine yields_ite.mpr ⟨fun _ => yields_pure.mpr fun _ => ?_, fun _ => yields_bind fun _ => ?_⟩
  · exact Decimal.fitsIn_one (by decide) (by decide)
  refine yields_ite.mpr ⟨fun _ => yields_error _, fun _ => yields_bind fun _ => ?_⟩
  refine yields_ite.mpr ⟨fun _ => ?_, fun _ => ?_⟩
  · have hpower := @Decimal.yields_fitsIn_power .working (by decide) (by decide) a (toInt b)
    refine (yields_liftM.mpr hpower).bind fun r hr => ?_
    cases r with
    | finite | nan => exact yields_pure.mpr fun _ => hr
    | infinite => exact yields_error _
  · split
    · exact yields_fitsIn_widen _ _
    · exact yields_error _
    · exact yields_error _

theorem yields_fitsIn_plus (a : Decimal) : Yields (FitsIn .working) (Decimal.plus .working a) := by
  cases a with
  | finite => exact Decimal.yields_fitsIn_round (by decide) _ _ _
  | infinite => exact yields_ok.mpr (Decimal.fitsIn_infinite _)
  | nan => exact yields_ok.mpr Decimal.fitsIn_nan

/-- A square root fits. -/
theorem yields_fitsIn_sqrt (a : Decimal) : Yields (FitsIn .working) (sqrt a) := by
  rw [sqrt]
  refine yields_bind fun _ => yields_ite.mpr ⟨fun _ => yields_error _, fun _ => ?_⟩
  refine yields_ite.mpr ⟨fun _ => yields_pure.mpr (Decimal.fitsIn_zero _ _), fun _ => ?_⟩
  refine yields_bind fun _ => yields_bind fun _ => yields_bind fun _ => yields_bind fun _ => ?_
  exact yields_liftM.mpr (yields_fitsIn_plus _)

end Numeric

end Reckon
