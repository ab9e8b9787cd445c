import Reckon.Binary64.Basic
import Reckon.Proofs.AlikeOrder

/-!
# Doubles of forms of a number

The double nearest to a fraction depends on its value alone (`Binary64.ofRatio_eq_of_mul_eq`), so
all forms of a decimal have the same nearest double (`Decimal.Alike.ofDecimal_eq`).
-/

namespace Reckon

namespace Binary64

theorem cast_twoTo_toNat (k : Int) :
    ((twoTo k.toNat : ℕ) : ℚ) = 2 ^ k * (twoTo (-k).toNat : ℕ) := by
  have hcast : ∀ n : Nat, ((twoTo n : ℕ) : ℚ) = 2 ^ (n : ℤ) := fun n => by
    rw [zpow_natCast]
    exact Nat.cast_pow 2 n
  rw [hcast, hcast, ← zpow_add₀ (by norm_num)]
  congr 1
  omega

theorem twoTo_pos (n : Nat) : 0 < twoTo n :=
  Nat.pow_pos (by decide)

theorem log2_bounds {n : Nat} (hn : n ≠ 0) :
    (2 : ℚ) ^ (n.log2 : ℤ) ≤ n ∧ (n : ℚ) < 2 ^ (n.log2 + 1 : ℤ) := by
  constructor
  · rw [zpow_natCast]
    exact_mod_cast Nat.log2_self_le hn
  · have h : n < 2 ^ (n.log2 + 1) := Nat.lt_log2_self
    exact_mod_cast h

/-- The exponent that leaves 53 binary digits in front of the point, unless it is too small. -/
theorem exists_exponentOf {n d : Nat} (hn : n ≠ 0) (hd : d ≠ 0) :
    ∃ e : Int, exponentOf n d = max minExponent e ∧
      (2 : ℚ) ^ (e + 52) ≤ (n : ℚ) / d ∧ (n : ℚ) / d < 2 ^ (e + 53) := by
  obtain ⟨hnl, hnu⟩ := log2_bounds hn
  obtain ⟨hdl, hdu⟩ := log2_bounds hd
  have hdpos : (0 : ℚ) < d := by exact_mod_cast Nat.pos_of_ne_zero hd
  obtain ⟨e, he⟩ : ∃ e : Int, e = (n.log2 : Int) - d.log2 - 53 := ⟨_, rfl⟩
  have hlow : (2 : ℚ) ^ (e + 52) ≤ (n : ℚ) / d := by
    rw [le_div_iff₀ hdpos]
    calc (2 : ℚ) ^ (e + 52) * d ≤ 2 ^ (e + 52) * 2 ^ (d.log2 + 1 : ℤ) :=
          mul_le_mul_of_nonneg_left hdu.le (zpow_pos (by norm_num) _).le
      _ = 2 ^ (n.log2 : ℤ) := by
        rw [← zpow_add₀ (by norm_num)]
        congr 1
        omega
      _ ≤ n := hnl
  have hhigh : (n : ℚ) / d < 2 ^ (e + 54) := by
    rw [div_lt_iff₀ hdpos]
    calc (n : ℚ) < 2 ^ (n.log2 + 1 : ℤ) := hnu
      _ = 2 ^ (e + 54) * 2 ^ (d.log2 : ℤ) := by
        rw [← zpow_add₀ (by norm_num)]
        congr 1
        omega
      _ ≤ 2 ^ (e + 54) * d := mul_le_mul_of_nonneg_left hdl (zpow_pos (by norm_num) _).le
  have hfew : n * twoTo (-e).toNat / (d * twoTo e.toNat) < twoTo 53 ↔
      (n : ℚ) / d < 2 ^ (e + 53) := by
    have hpow : (0 : ℚ) < (twoTo (-e).toNat : ℕ) := by exact_mod_cast twoTo_pos _
    have hscaled : ((twoTo 53 : ℕ) : ℚ) * (d * (2 ^ e * (twoTo (-e).toNat : ℕ))) =
        2 ^ (e + 53) * d * (twoTo (-e).toNat : ℕ) := by
      rw [zpow_add₀ (by norm_num), show ((twoTo 53 : ℕ) : ℚ) = 2 ^ (53 : ℤ) by norm_num [twoTo]]
      ring
    rw [Nat.div_lt_iff_lt_mul (Nat.mul_pos (Nat.pos_of_ne_zero hd) (twoTo_pos _)),
      div_lt_iff₀ hdpos, ← Nat.cast_lt (α := ℚ), Nat.cast_mul, Nat.cast_mul, Nat.cast_mul,
      cast_twoTo_toNat e, hscaled, mul_lt_mul_iff_left₀ hpow]
  by_cases hlt : n * twoTo (-e).toNat / (d * twoTo e.toNat) < twoTo 53
  · exact ⟨e, by simp only [exponentOf, ← he]; rw [if_pos hlt], hlow, hfew.mp hlt⟩
  · refine ⟨e + 1, by simp only [exponentOf, ← he]; rw [if_neg hlt], ?_, ?_⟩
    · rw [add_assoc]
      exact not_lt.mp (mt hfew.mpr hlt)
    · rwa [add_assoc]

/-- The exponent is that of the value of the fraction. -/
theorem exponentOf_eq_of_mul_eq {n d n' d' : Nat} (hn : n ≠ 0) (hd : d ≠ 0) (hn' : n' ≠ 0)
    (hd' : d' ≠ 0) (h : n * d' = n' * d) : exponentOf n d = exponentOf n' d' := by
  obtain ⟨e, he, hle, hlt⟩ := exists_exponentOf hn hd
  obtain ⟨e', he', hle', hlt'⟩ := exists_exponentOf hn' hd'
  have hvalue : (n : ℚ) / d = n' / d' := by
    rw [div_eq_div_iff (by exact_mod_cast hd) (by exact_mod_cast hd')]
    exact_mod_cast h
  rw [hvalue] at hle hlt
  have h₁ := (zpow_lt_zpow_iff_right₀ (show (1 : ℚ) < 2 by norm_num)).mp (hle.trans_lt hlt')
  have h₂ := (zpow_lt_zpow_iff_right₀ (show (1 : ℚ) < 2 by norm_num)).mp (hle'.trans_lt hlt)
  rw [he, he', show e = e' by omega]

/-- Equal fractions have the same nearest double. -/
theorem ofRatio_eq_of_mul_eq (negative : Bool) {n d n' d' : Nat} (hd : d ≠ 0) (hd' : d' ≠ 0)
    (h : n * d' = n' * d) : ofRatio negative n d = ofRatio negative n' d' := by
  have hzero : n = 0 ↔ n' = 0 := by
    have hiff : n * d' = 0 ↔ n' * d = 0 := by rw [h]
    simpa [hd, hd'] using hiff
  by_cases hn : n = 0
  · rw [ofRatio, ofRatio, if_pos hn, if_pos (hzero.mp hn)]
  rw [ofRatio, ofRatio, if_neg hn, if_neg (mt hzero.mpr hn),
    exponentOf_eq_of_mul_eq hn hd (mt hzero.mpr hn) hd' h]
  obtain ⟨e, he⟩ : ∃ e, e = exponentOf n' d' := ⟨_, rfl⟩
  simp only [← he]
  rw [Rounding.halfEven.quotient_eq_of_mul_eq false
    (Nat.mul_pos (Nat.pos_of_ne_zero hd) (twoTo_pos _))
    (Nat.mul_pos (Nat.pos_of_ne_zero hd') (twoTo_pos _))
    (show n * twoTo (-e).toNat * (d' * twoTo e.toNat) =
        n' * twoTo (-e).toNat * (d * twoTo e.toNat) by
      rw [mul_mul_mul_comm, h, mul_mul_mul_comm])]

end Binary64

theorem Decimal.Alike.ofDecimal_eq {a b : Decimal} (h : a.Alike b) :
    Binary64.ofDecimal a = Binary64.ofDecimal b := by
  cases a with
  | finite m c e =>
    obtain ⟨d, k, rfl, hc⟩ := h.exists_of_finite
    have hzero := eq_zero_iff_of_mul_zpow_eq hc
    by_cases hne : c = 0
    · simp only [Binary64.ofDecimal, hne, hzero.mp hne, true_or, ↓reduceIte]
    · simp only [Binary64.ofDecimal, hne, mt hzero.mpr hne, false_or, leading_eq hne hc, tenTo_eq]
      rw [Binary64.ofRatio_eq_of_mul_eq m (pow_toNat_pos (-e)).ne' (pow_toNat_pos (-k)).ne'
        (mul_pow_eq_of_mul_zpow_eq hc)]
  | infinite | nan =>
    obtain rfl := h
    rfl

end Reckon
