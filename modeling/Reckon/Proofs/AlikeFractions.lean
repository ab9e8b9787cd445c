import Reckon.Proofs.AlikeArithmetic

/-!
# Quotients of forms of a number

Quotients, remainders and changes of exponent do not tell the forms of their operands apart
(`agree_div`, `agree_rem`, `agree_quantize`): the fractions that are made of two forms are equal.
-/

namespace Reckon

open Decimal (digitCount signed)

/-! ### Equal fractions -/

/-- Equal fractions have the same integer part, and both are integers or none is. -/
theorem div_eq_of_mul_eq {n d n' d' : Nat} (hd : 0 < d) (hd' : 0 < d') (h : n * d' = n' * d) :
    n / d = n' / d' ∧ (n % d = 0 ↔ n' % d' = 0) := by
  have hn : n / d = n * d' / (d * d') := (Nat.mul_div_mul_right n d hd').symm
  have hn' : n' / d' = n' * d / (d * d') := by
    rw [Nat.mul_comm d d', Nat.mul_div_mul_right n' d' hd]
  have hr : n % d = 0 ↔ n * d' % (d * d') = 0 := by
    rw [Nat.mul_mod_mul_right]
    simp [hd'.ne']
  have hr' : n' % d' = 0 ↔ n' * d % (d * d') = 0 := by
    rw [Nat.mul_comm d d', Nat.mul_mod_mul_right]
    simp [hd.ne']
  rw [hn, hn', hr, hr', h]
  exact ⟨rfl, Iff.rfl⟩

theorem Rounding.quotient_eq_of_mul_eq (r : Rounding) (negative : Bool) {n d n' d' : Nat}
    (hd : 0 < d) (hd' : 0 < d') (h : n * d' = n' * d) :
    r.quotient negative n d = r.quotient negative n' d' := by
  rw [← r.quotient_mul negative n d hd', ← r.quotient_mul negative n' d' hd, h, Nat.mul_comm d d']

theorem pow_toNat_pos (k : Int) : 0 < 10 ^ k.toNat :=
  Nat.pow_pos (by decide)

theorem cast_pow_toNat (k : Int) : ((10 ^ k.toNat : ℕ) : ℚ) = 10 ^ k * (10 ^ (-k).toNat : ℕ) := by
  rw [cast_ten_pow, cast_ten_pow, ← zpow_add₀ (by norm_num)]
  congr 1
  omega

/-- Two forms of a number as fractions of natural numbers. -/
theorem mul_pow_eq_of_mul_zpow_eq {c c' : Nat} {e e' : Int} (h : (c : ℚ) * 10 ^ e = c' * 10 ^ e') :
    c * 10 ^ e.toNat * 10 ^ (-e').toNat = c' * 10 ^ e'.toNat * 10 ^ (-e).toNat := by
  have hcast : ((c * 10 ^ e.toNat * 10 ^ (-e').toNat : ℕ) : ℚ) =
      (c' * 10 ^ e'.toNat * 10 ^ (-e).toNat : ℕ) := by
    rw [Nat.cast_mul, Nat.cast_mul, Nat.cast_mul, Nat.cast_mul, cast_pow_toNat e, cast_pow_toNat e',
      ← mul_assoc, ← mul_assoc, h]
    ring
  exact_mod_cast hcast

theorem mul_zpow_sub {c c' : Nat} {e e' : Int} (k : Int) (h : (c : ℚ) * 10 ^ e = c' * 10 ^ e') :
    (c : ℚ) * 10 ^ (e - k) = c' * 10 ^ (e' - k) := by
  rw [zpow_sub₀ (by norm_num), zpow_sub₀ (by norm_num), ← mul_div_assoc, ← mul_div_assoc, h]

namespace Decimal
variable {ctx : Context} {a a' b b' : Decimal}

/-! ### Quotients -/

/-- A quotient is exact, or one unit stands for the rest behind two digits too many. -/
theorem agree_divCoefficients {negative : Bool} (c c' : Nat) (ideal : Int) :
    let shift : Int := (digitCount c' : Int) - digitCount c + ctx.digits + 1
    let n := c * 10 ^ shift.toNat
    let d := c' * 10 ^ (-shift).toNat
    AgreeDecimal (divCoefficients ctx negative c c' ideal)
      (if n % d = 0 then ctx.round negative (n / d) (ideal - shift)
        else ctx.round negative (10 * (n / d) + 1) (ideal - shift - 1)) := by
  intro shift n d
  have heq : divCoefficients ctx negative c c' ideal =
      if n % d = 0 then
        ctx.round negative (trimZeros (n / d) shift.toNat).1
          (ideal - min shift (trimZeros (n / d) shift.toNat).2)
      else ctx.round negative (10 * (n / d) + 1) (ideal - shift - 1) := rfl
  rw [heq]
  split
  · obtain ⟨hleft, hvalue⟩ := trimZeros_spec (n / d) shift.toNat
    refine Context.agree_round ?_
    have hle : ideal - shift ≤ ideal - min shift (trimZeros (n / d) shift.toNat).2 := by omega
    rw [ten_zpow_split hle, ← mul_assoc, tenTo_eq]
    congr 1
    conv_rhs => rw [← hvalue]
    push_cast
    congr 2
    omega
  · exact .refl (fun _ => rfl) .refl _

theorem agree_divCoefficients_of_mul_zpow_eq {negative : Bool} {c d c' d' : Nat} {e k e' k' : Int}
    (h : (c : ℚ) * 10 ^ e = d * 10 ^ k) (h' : (c' : ℚ) * 10 ^ e' = d' * 10 ^ k') (hc : c ≠ 0)
    (hc' : c' ≠ 0) :
    AgreeDecimal (divCoefficients ctx negative c c' (e - e'))
      (divCoefficients ctx negative d d' (k - k')) := by
  refine (agree_divCoefficients c c' (e - e')).trans (.trans ?_
    ((agree_divCoefficients d d' (k - k')).symm fun _ _ => Eq.symm))
  have hplace := leading_eq hc h
  have hplace' := leading_eq hc' h'
  have hd' : d' ≠ 0 := mt (eq_zero_iff_of_mul_zpow_eq h').mpr hc'
  obtain ⟨shift, hshift⟩ : ∃ shift, shift = (digitCount c' : Int) - digitCount c + ctx.digits + 1 :=
    ⟨_, rfl⟩
  obtain ⟨shift', hshift'⟩ :
      ∃ shift, shift = (digitCount d' : Int) - digitCount d + ctx.digits + 1 := ⟨_, rfl⟩
  simp only [← hshift, ← hshift']
  -- both fractions stand for the same quotient, moved to the same place
  have hcross : c * 10 ^ shift.toNat * (d' * 10 ^ (-shift').toNat) =
      d * 10 ^ shift'.toNat * (c' * 10 ^ (-shift).toNat) := by
    have hvalue : (c : ℚ) * d' * 10 ^ shift = d * c' * 10 ^ shift' := by
      have hsum : (c : ℚ) * d' * 10 ^ (e + k') = d * c' * 10 ^ (k + e') := by
        rw [zpow_add₀ (by norm_num), zpow_add₀ (by norm_num), mul_mul_mul_comm, h, ← h',
          mul_mul_mul_comm]
      rw [show shift = e + k' + (shift - e - k') by ring, zpow_add₀ (by norm_num), ← mul_assoc,
        hsum, mul_assoc, ← zpow_add₀ (by norm_num)]
      congr 2
      omega
    have hcast : ((c * 10 ^ shift.toNat * (d' * 10 ^ (-shift').toNat) : ℕ) : ℚ) =
        (d * 10 ^ shift'.toNat * (c' * 10 ^ (-shift).toNat) : ℕ) := by
      push_cast [cast_pow_toNat shift, cast_pow_toNat shift']
      linear_combination (10 ^ (-shift).toNat * 10 ^ (-shift').toNat : ℚ) * hvalue
    exact_mod_cast hcast
  obtain ⟨hdiv, hmod⟩ := div_eq_of_mul_eq (Nat.mul_pos (Nat.pos_of_ne_zero hc') (pow_toNat_pos _))
    (Nat.mul_pos (Nat.pos_of_ne_zero hd') (pow_toNat_pos _)) hcross
  simp only [hdiv, hmod, show k - k' - shift' = e - e' - shift by omega]
  exact .refl (fun _ => rfl) .refl _

theorem agree_div (ha : a.Alike a') (hb : b.Alike b') :
    AgreeDecimal (div ctx a b) (div ctx a' b') := by
  cases a with
  | nan =>
    obtain rfl := ha
    exact .ok (.refl _)
  | infinite =>
    obtain rfl := ha
    cases b with
    | finite =>
      obtain ⟨d, k, rfl, -⟩ := hb.exists_of_finite
      exact .ok (.refl _)
    | infinite | nan =>
      obtain rfl := hb
      exact .refl (fun _ => rfl) .refl _
  | finite m c e =>
    obtain ⟨d, k, rfl, hc⟩ := ha.exists_of_finite
    cases b with
    | infinite | nan =>
      obtain rfl := hb
      exact .ok (.refl _)
    | finite n c' e' =>
      obtain ⟨d', k', rfl, hc'⟩ := hb.exists_of_finite
      simp only [div, ← eq_zero_iff_of_mul_zpow_eq hc, ← eq_zero_iff_of_mul_zpow_eq hc']
      split
      · exact .error rfl
      split
      · exact Context.agree_round (by simp)
      · exact agree_divCoefficients_of_mul_zpow_eq hc hc' ‹_› ‹_›

/-! ### Remainders -/

/-- The quotient and the remainder of two numbers that are written with one exponent. -/
theorem div_mod_of_mul_zpow_eq {n d n' d' : Nat} {e e' : Int} (h : (n : ℚ) * 10 ^ e = n' * 10 ^ e')
    (h' : (d : ℚ) * 10 ^ e = d' * 10 ^ e') :
    n / d = n' / d' ∧ ((n % d : ℕ) : ℚ) * 10 ^ e = (n' % d' : ℕ) * 10 ^ e' := by
  have hle : ∀ {n d n' d' : Nat} {e e' : Int}, e' ≤ e → (n : ℚ) * 10 ^ e = n' * 10 ^ e' →
      (d : ℚ) * 10 ^ e = d' * 10 ^ e' →
      n / d = n' / d' ∧ ((n % d : ℕ) : ℚ) * 10 ^ e = (n' % d' : ℕ) * 10 ^ e' := by
    intro n d n' d' e e' hle h h'
    rw [eq_mul_of_mul_zpow_eq hle h.symm, eq_mul_of_mul_zpow_eq hle h'.symm,
      Nat.mul_div_mul_right _ _ (pow_toNat_pos _), Nat.mul_mod_mul_right, ten_zpow_split hle,
      tenTo_eq]
    refine ⟨rfl, ?_⟩
    push_cast
    ring
  rcases Int.le_total e' e with he | he
  · exact hle he h h'
  · obtain ⟨hdiv, hmod⟩ := hle he h.symm h'.symm
    exact ⟨hdiv.symm, hmod.symm⟩

theorem mul_pow_sub_mul_zpow (c : Nat) (e e' : Int) :
    ((c * 10 ^ (e - e').toNat : ℕ) : ℚ) * 10 ^ min e e' = c * 10 ^ e := by
  rw [Nat.cast_mul, cast_ten_pow, mul_assoc, ← zpow_add₀ (by norm_num)]
  congr 2
  omega

/-- A remainder is found by dividing coefficients; a number that is smaller than the divisor is its
own remainder. -/
theorem rem_finite (hctx : 0 < ctx.digits) (m : Bool) {c c' : Nat} (e : Int) (n : Bool) (e' : Int)
    (hc : c ≠ 0) (hc' : c' ≠ 0) :
    let x := c * 10 ^ (e - e').toNat
    let y := c' * 10 ^ (e' - e).toNat
    rem ctx (finite m c e) (finite n c' e') =
      if (ctx.digits : Int) < e + digitCount c - (e' + digitCount c') then
        .error .divisionImpossible
      else if digitCount (x / y) ≤ ctx.digits then ctx.round m (x % y) (min e e')
      else .error .divisionImpossible := by
  intro x y
  rw [rem, if_neg hc', if_neg hc]
  simp only
  split
  · rfl
  split
  · rename_i hsmaller
    have hlt : c < y := by
      obtain ⟨k, hk, hle, -⟩ := exists_digitCount hc'
      calc c < 10 ^ digitCount c := lt_pow_digitCount c
        _ ≤ 10 ^ (k + (e' - e).toNat) := Nat.pow_le_pow_right (by decide) (by omega)
        _ = 10 ^ k * 10 ^ (e' - e).toNat := pow_add ..
        _ ≤ y := Nat.mul_le_mul_right _ hle
    have hx : x = c := by
      rw [show x = c * 10 ^ (e - e').toNat from rfl, show (e - e').toNat = 0 by omega, pow_zero,
        Nat.mul_one]
    rw [hx, Nat.div_eq_of_lt hlt, Nat.mod_eq_of_lt hlt, min_eq_left hsmaller.2, if_pos]
    exact hctx
  · rfl

theorem agree_rem_finite {m n : Bool} {c c' d d' : Nat} {e e' k k' : Int} (hctx : 0 < ctx.digits)
    (hc : (c : ℚ) * 10 ^ e = d * 10 ^ k) (hc' : (c' : ℚ) * 10 ^ e' = d' * 10 ^ k') :
    AgreeDecimal (rem ctx (finite m c e) (finite n c' e'))
      (rem ctx (finite m d k) (finite n d' k')) := by
  have hzero := eq_zero_iff_of_mul_zpow_eq hc
  have hzero' := eq_zero_iff_of_mul_zpow_eq hc'
  by_cases hdivisor : c' = 0
  · rw [rem, rem, if_pos hdivisor, if_pos (hzero'.mp hdivisor)]
    exact .error (if_congr hzero rfl rfl)
  by_cases hdividend : c = 0
  · rw [rem, rem, if_neg hdivisor, if_neg (mt hzero'.mpr hdivisor), if_pos hdividend,
      if_pos (hzero.mp hdividend)]
    exact Context.agree_round (by simp)
  rw [rem_finite hctx m e n e' hdividend hdivisor,
    rem_finite hctx m k n k' (mt hzero.mpr hdividend) (mt hzero'.mpr hdivisor)]
  have hx : ((c * 10 ^ (e - e').toNat : ℕ) : ℚ) * 10 ^ min e e' =
      (d * 10 ^ (k - k').toNat : ℕ) * 10 ^ min k k' := by
    rw [mul_pow_sub_mul_zpow, mul_pow_sub_mul_zpow, hc]
  have hy : ((c' * 10 ^ (e' - e).toNat : ℕ) : ℚ) * 10 ^ min e e' =
      (d' * 10 ^ (k' - k).toNat : ℕ) * 10 ^ min k k' := by
    rw [min_comm e, min_comm k, mul_pow_sub_mul_zpow, mul_pow_sub_mul_zpow, hc']
  obtain ⟨hdiv, hmod⟩ := div_mod_of_mul_zpow_eq hx hy
  simp only [leading_eq hdividend hc, leading_eq hdivisor hc', hdiv]
  split
  · exact .error rfl
  split
  · exact Context.agree_round hmod
  · exact .error rfl

theorem agree_rem (hctx : 0 < ctx.digits) (ha : a.Alike a') (hb : b.Alike b') :
    AgreeDecimal (rem ctx a b) (rem ctx a' b') := by
  cases a with
  | nan =>
    obtain rfl := ha
    exact .ok (.refl _)
  | infinite =>
    obtain rfl := ha
    cases b with
    | finite =>
      obtain ⟨d, k, rfl, -⟩ := hb.exists_of_finite
      exact .error rfl
    | infinite | nan =>
      obtain rfl := hb
      exact .refl (fun _ => rfl) .refl _
  | finite m c e =>
    obtain ⟨d, k, rfl, hc⟩ := ha.exists_of_finite
    cases b with
    | infinite =>
      obtain rfl := hb
      exact Context.agree_round hc
    | nan =>
      obtain rfl := hb
      exact .ok (.refl _)
    | finite n c' e' =>
      obtain ⟨d', k', rfl, hc'⟩ := hb.exists_of_finite
      exact agree_rem_finite hctx hc hc'

/-! ### Changes of exponent -/

theorem agree_scale (h : a.Alike b) (n : Int) : AgreeDecimal (scale ctx a n) (scale ctx b n) := by
  cases a with
  | finite m c e =>
    obtain ⟨d, k, rfl, hc⟩ := h.exists_of_finite
    rw [scale, scale]
    split
    · refine Context.agree_round ?_
      rw [zpow_add₀ (by norm_num), zpow_add₀ (by norm_num), ← mul_assoc, ← mul_assoc, hc]
    · exact .error rfl
  | infinite | nan =>
    obtain rfl := h
    exact .refl (fun _ => rfl) .refl _

theorem quotient_eq_of_mul_zpow_eq {c c' : Nat} {e e' : Int} (r : Rounding) (negative : Bool)
    (h : (c : ℚ) * 10 ^ e = c' * 10 ^ e') :
    r.quotient negative (c * 10 ^ e.toNat) (10 ^ (-e).toNat) =
      r.quotient negative (c' * 10 ^ e'.toNat) (10 ^ (-e').toNat) :=
  r.quotient_eq_of_mul_eq negative (pow_toNat_pos _) (pow_toNat_pos _) (mul_pow_eq_of_mul_zpow_eq h)

/-- A number moved to another exponent is a fraction rounded. -/
theorem quantize_finite {negative : Bool} {c : Nat} (e target : Int) (hc : c ≠ 0) :
    quantize ctx (finite negative c e) target =
      if ctx.digits < digitCount c + (e - target) then .error .invalidOperation
      else ctx.round negative
        (ctx.rounding.quotient negative (c * 10 ^ (e - target).toNat) (10 ^ (-(e - target)).toNat))
        target := by
  rw [quantize, if_neg hc]
  split
  · rfl
  split
  · rename_i hle
    rw [show (-(e - target)).toNat = 0 by omega, pow_zero, Rounding.quotient_one, tenTo_eq]
  · rename_i hlt
    rw [show (e - target).toNat = 0 by omega, pow_zero, Nat.mul_one, Rounding.dropDigits_eq,
      neg_sub]

theorem agree_quantize (h : a.Alike b) (target : Int) :
    AgreeDecimal (quantize ctx a target) (quantize ctx b target) := by
  cases a with
  | finite m c e =>
    obtain ⟨d, k, rfl, heq⟩ := h.exists_of_finite
    have hzero := eq_zero_iff_of_mul_zpow_eq heq
    by_cases hc : c = 0
    · rw [quantize, quantize, if_pos hc, if_pos (hzero.mp hc)]
      exact .refl (fun _ => rfl) .refl _
    · rw [quantize_finite e target hc, quantize_finite k target (mt hzero.mpr hc),
        quotient_eq_of_mul_zpow_eq _ _ (mul_zpow_sub target heq),
        show digitCount c + (e - target) = digitCount d + (k - target) by
          have := leading_eq hc heq
          omega]
      exact .refl (fun _ => rfl) .refl _
  | infinite | nan =>
    obtain rfl := h
    exact .refl (fun _ => rfl) .refl _

theorem alike_toIntegral_finite (r : Rounding) (m : Bool) (c : Nat) (e : Int) :
    ((finite m c e).toIntegral r).Alike
      (finite m (r.quotient m (c * 10 ^ e.toNat) (10 ^ (-e).toNat)) 0) := by
  rw [toIntegral]
  split
  · rename_i he
    rw [show (-e).toNat = 0 by omega, pow_zero, Rounding.quotient_one]
    refine ⟨rfl, ?_⟩
    rw [ten_zpow_split he, sub_zero, ← mul_assoc, tenTo_eq]
    push_cast
    rfl
  · rename_i he
    rw [show e.toNat = 0 by omega, pow_zero, Nat.mul_one, Rounding.dropDigits_eq]

theorem Alike.toIntegral (r : Rounding) (h : a.Alike b) :
    (a.toIntegral r).Alike (b.toIntegral r) := by
  cases a with
  | finite m c e =>
    obtain ⟨d, k, rfl, heq⟩ := h.exists_of_finite
    refine (alike_toIntegral_finite r m c e).trans ?_
    rw [quotient_eq_of_mul_zpow_eq r m heq]
    exact (alike_toIntegral_finite r m d k).symm
  | infinite | nan =>
    obtain rfl := h
    rfl

end Decimal

end Reckon
