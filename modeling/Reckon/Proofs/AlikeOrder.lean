import Reckon.Proofs.AlikeFractions

/-!
# Order, integers and powers of forms of a number

Comparing decimals compares their values (`compareMagnitude_eq_compare`). So order, integer parts
and integer powers do not tell the forms of a number apart (`Alike.compare?_eq`, `agree_power`).
-/

namespace Reckon

namespace Decimal
variable {ctx : Context} {a a' b b' : Decimal}

/-! ### Order -/

theorem lt_of_place_lt {c c' m m' : Nat} {e e' : Int} (hlt : c < 10 ^ (m + 1)) (hle : 10 ^ m' ≤ c')
    (h : e + m < e' + m') : (c : ℚ) * 10 ^ e < c' * 10 ^ e' :=
  calc (c : ℚ) * 10 ^ e < (10 ^ (m + 1) : ℕ) * 10 ^ e :=
        mul_lt_mul_of_pos_right (by exact_mod_cast hlt) (ten_zpow_pos e)
    _ = 10 ^ (e + m + 1) := by
        rw [cast_ten_pow, ← zpow_add₀ (by norm_num)]
        congr 1
        push_cast
        ring
    _ ≤ 10 ^ (e' + m') := zpow_le_zpow_right₀ (by norm_num) (by omega)
    _ = (10 ^ m' : ℕ) * 10 ^ e' := by
        rw [cast_ten_pow, ← zpow_add₀ (by norm_num), add_comm]
    _ ≤ c' * 10 ^ e' := mul_le_mul_of_nonneg_right (by exact_mod_cast hle) (ten_zpow_pos e').le

/-- The magnitudes of two decimals compare as their values do. -/
theorem compareMagnitude_eq_compare (c : Nat) (e : Int) (c' : Nat) (e' : Int) :
    compareMagnitude c e c' e' = compare ((c : ℚ) * 10 ^ e) (c' * 10 ^ e') := by
  have hpos := ten_zpow_pos e
  have hpos' := ten_zpow_pos e'
  rw [compareMagnitude]
  by_cases hc : c = 0
  · by_cases hc' : c' = 0
    · simp [hc, hc']
    · rw [if_pos hc, if_neg hc', hc, Nat.cast_zero, zero_mul, eq_comm, compare_lt_iff_lt]
      positivity
  by_cases hc' : c' = 0
  · rw [if_neg hc, if_pos hc', hc', Nat.cast_zero, zero_mul, eq_comm, compare_gt_iff_gt]
    positivity
  rw [if_neg hc, if_neg hc']
  obtain ⟨m, hm, hle, hlt⟩ := exists_digitCount hc
  obtain ⟨m', hm', hle', hlt'⟩ := exists_digitCount hc'
  rcases lt_trichotomy (e + digitCount c) (e' + digitCount c') with h | h | h
  · rw [compare_lt_iff_lt.mpr h, eq_comm, compare_lt_iff_lt]
    exact lt_of_place_lt hlt hle' (by omega)
  · rw [compare_eq_iff_eq.mpr h]
    simp only
    rw [← mul_pow_sub_mul_zpow c e e', ← mul_pow_sub_mul_zpow c' e' e, min_comm e' e]
    have hmin := ten_zpow_pos (min e e')
    rcases lt_trichotomy (c * 10 ^ (e - e').toNat) (c' * 10 ^ (e' - e).toNat) with hn | hn | hn
    · rw [tenTo_eq, tenTo_eq, compare_lt_iff_lt.mpr hn, eq_comm, compare_lt_iff_lt]
      exact mul_lt_mul_of_pos_right (by exact_mod_cast hn) hmin
    · rw [tenTo_eq, tenTo_eq, hn, compare_eq_iff_eq.mpr rfl, compare_eq_iff_eq.mpr rfl]
    · rw [tenTo_eq, tenTo_eq, compare_gt_iff_gt.mpr hn, eq_comm, compare_gt_iff_gt]
      exact mul_lt_mul_of_pos_right (by exact_mod_cast hn) hmin
  · rw [compare_gt_iff_gt.mpr h, eq_comm, compare_gt_iff_gt]
    exact lt_of_place_lt hlt' hle (by omega)

theorem Alike.compareMagnitude_eq {c d c' d' : Nat} {e k e' k' : Int}
    (h : (c : ℚ) * 10 ^ e = d * 10 ^ k) (h' : (c' : ℚ) * 10 ^ e' = d' * 10 ^ k') :
    compareMagnitude c e c' e' = compareMagnitude d k d' k' := by
  rw [compareMagnitude_eq_compare, compareMagnitude_eq_compare, h, h']

theorem Alike.compare?_eq (ha : a.Alike a') (hb : b.Alike b') : compare? a b = compare? a' b' := by
  cases a with
  | nan =>
    obtain rfl := ha
    rw [compare?, compare?]
  | infinite m =>
    obtain rfl := ha
    cases b with
    | finite n c' e' =>
      obtain ⟨d', k', rfl, -⟩ := hb.exists_of_finite
      rfl
    | infinite | nan =>
      obtain rfl := hb
      rfl
  | finite m c e =>
    obtain ⟨d, k, rfl, hc⟩ := ha.exists_of_finite
    cases b with
    | infinite | nan =>
      obtain rfl := hb
      rfl
    | finite n c' e' =>
      obtain ⟨d', k', rfl, hc'⟩ := hb.exists_of_finite
      simp only [compare?, ne_eq, eq_zero_iff_of_mul_zpow_eq hc, eq_zero_iff_of_mul_zpow_eq hc',
        Alike.compareMagnitude_eq hc hc', Alike.compareMagnitude_eq hc' hc]

theorem Alike.same_eq (ha : a.Alike a') (hb : b.Alike b') : a.same b = a'.same b' := by
  rw [same, same, ha.compare?_eq hb]

theorem Alike.isZero_eq (h : a.Alike b) : a.isZero = b.isZero :=
  h.same_eq (.refl _)

theorem Alike.less_eq (ha : a.Alike a') (hb : b.Alike b') : a.less b = a'.less b' := by
  rw [less, less, order, order, ha.compare?_eq hb]

theorem Alike.atMost_eq (ha : a.Alike a') (hb : b.Alike b') : a.atMost b = a'.atMost b' := by
  rw [atMost, atMost, order, order, ha.compare?_eq hb]

/-! ### Integers -/

theorem Alike.isIntegral_eq (h : a.Alike b) : a.isIntegral = b.isIntegral := by
  have himp : ∀ {a b : Decimal}, a.Alike b → a.isIntegral = true → b.isIntegral = true := by
    intro a b h ha
    cases a with
    | finite m c e =>
      obtain ⟨z, hz⟩ := exists_of_isIntegral ha
      refine isIntegral_of_toRat? (z := z) (k := 0) ?_ le_rfl
      rw [← h.toRat?_eq, hz]
      simp
    | infinite | nan => cases ha
  rw [Bool.eq_iff_iff]
  exact ⟨himp h, himp h.symm⟩

/-- The integer part of a number as the integer part of a fraction. -/
theorem magnitude_eq_div (c : Nat) (e : Int) :
    magnitude c e = c * 10 ^ e.toNat / 10 ^ (-e).toNat := by
  rw [magnitude]
  split
  · rw [show (-e).toNat = 0 by omega, pow_zero, Nat.div_one, tenTo_eq]
  rw [show e.toNat = 0 by omega, pow_zero, Nat.mul_one]
  split
  · rfl
  · rename_i hcount
    refine (Nat.div_eq_of_lt ?_).symm
    exact (lt_pow_digitCount c).trans_le (Nat.pow_le_pow_right (by decide) (Nat.not_lt.mp hcount))

theorem magnitude_eq_of_mul_zpow_eq {c c' : Nat} {e e' : Int}
    (h : (c : ℚ) * 10 ^ e = c' * 10 ^ e') : magnitude c e = magnitude c' e' := by
  rw [magnitude_eq_div, magnitude_eq_div]
  exact (div_eq_of_mul_eq (pow_toNat_pos _) (pow_toNat_pos _) (mul_pow_eq_of_mul_zpow_eq h)).1

/-! ### Powers -/

theorem agree_powerBySquaring (h : a.Alike b) (n : Nat) :
    AgreeDecimal (powerBySquaring ctx a n) (powerBySquaring ctx b n) := by
  fun_induction powerBySquaring ctx a n with
  | case1 n hn =>
    rw [powerBySquaring, if_pos hn]
    exact .ok h
  | case2 n hn ih =>
    rw [powerBySquaring.eq_1 ctx b, if_neg hn]
    refine ih.bind fun root root' hroot => (agree_mul hroot hroot).bind fun square square' hs => ?_
    split
    · exact agree_mul hs h
    · exact .ok hs

theorem alike_powerOfUnit {negative : Bool} {e k n : Int} :
    (powerOfUnit ctx negative e n).Alike (powerOfUnit ctx negative k n) := by
  have hone : ∀ j : Nat, ((tenTo j : ℕ) : ℚ) * 10 ^ (-j : ℤ) = 1 := fun j => by
    rw [tenTo_eq, cast_ten_pow, ← zpow_add₀ (by norm_num)]
    simp
  rw [powerOfUnit, powerOfUnit]
  split
  · rfl
  · exact ⟨rfl, by rw [hone, hone]⟩

theorem agree_power (h : a.Alike b) (n : Int) : AgreeDecimal (power ctx a n) (power ctx b n) := by
  cases a with
  | infinite | nan =>
    obtain rfl := h
    exact .refl (fun _ => rfl) .refl _
  | finite m c e =>
    obtain ⟨d, k, rfl, hc⟩ := h.exists_of_finite
    have hbase : (finite false c e).Alike (finite false d k) := ⟨rfl, hc⟩
    have hrounded {r r' : Except Signal Decimal} {f : Decimal → Except Signal Decimal}
        (h : AgreeDecimal r r')
        (hf : ∀ n (c : ℕ) e (d : ℕ) k, (c : ℚ) * 10 ^ e = d * 10 ^ k →
          AgreeDecimal (f (finite n c e)) (f (finite n d k))) :
        AgreeDecimal (r >>= f) (r' >>= f) := by
      refine h.bind fun a b hab => ?_
      cases a with
      | finite =>
        obtain ⟨d, k, rfl, hc⟩ := hab.exists_of_finite
        exact hf _ _ _ _ _ hc
      | infinite | nan =>
        obtain rfl := hab
        exact .refl (fun _ => rfl) .refl _
    simp only [power, ← eq_zero_iff_of_mul_zpow_eq hc, ← Alike.compareMagnitude_eq hc rfl]
    split
    · exact .refl (fun _ => rfl) .refl _
    split
    · exact .ok (.refl _)
    split
    · exact .ok alike_powerOfUnit
    split
    · rw [← bind_assoc, ← bind_assoc]
      refine hrounded ?_ fun _ _ _ _ _ => Context.agree_round
      exact (agree_div (.refl _) hbase).bind fun _ _ => (agree_powerBySquaring · _)
    · exact hrounded (agree_powerBySquaring hbase _) fun _ _ _ _ _ => Context.agree_round

end Decimal

end Reckon
