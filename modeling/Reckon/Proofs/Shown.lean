import Reckon.Proofs.Digits
import Reckon.Proofs.ExactValue

/-!
# Numbers that lose no digit

A number is displayed exactly (`IsShown`) if it is an integer that is displayed at all, or if it has
few digits: as many as are displayed of a fraction, and none below the smallest exponent
(`isShown_of_hasFewDigits`).
-/

namespace Reckon

open Reckon.Text
open Reckon.Decimal (ten_zpow_split)

/-! ### Powers of ten -/

theorem ten_zpow_pos (k : Int) : (0 : ℚ) < 10 ^ k :=
  zpow_pos (by norm_num) k

theorem tenTo_eq (n : Nat) : tenTo n = 10 ^ n := rfl

theorem cast_ten_pow (n : Nat) : ((10 ^ n : ℕ) : ℚ) = 10 ^ (n : Int) := by
  rw [zpow_natCast]
  push_cast
  rfl

/-- A number with `m + 1` digits has its first digit in place `e + m`. -/
theorem lt_add_of_mul_zpow_eq {c n m d : Nat} {e k : Int} (hm : 10 ^ m ≤ c) (hn : n < 10 ^ d)
    (h : (c : ℚ) * 10 ^ e = n * 10 ^ k) : e + m < k + d := by
  have hc : (10 : ℚ) ^ (e + m) ≤ c * 10 ^ e := by
    rw [zpow_add₀ (by norm_num), mul_comm, ← cast_ten_pow]
    exact mul_le_mul_of_nonneg_right (by exact_mod_cast hm) (ten_zpow_pos e).le
  have hd : n * (10 : ℚ) ^ k < 10 ^ (k + d) := by
    rw [zpow_add₀ (by norm_num), mul_comm ((10 : ℚ) ^ k), ← cast_ten_pow]
    exact mul_lt_mul_of_pos_right (by exact_mod_cast hn) (ten_zpow_pos k)
  exact (zpow_lt_zpow_iff_right₀ (by norm_num)).mp (hc.trans_lt (h ▸ hd))

/-- The coefficient of the smaller exponent is a multiple of the other one. -/
theorem eq_mul_of_mul_zpow_eq {c n : Nat} {e k : Int} (hle : e ≤ k)
    (h : (c : ℚ) * 10 ^ e = n * 10 ^ k) : c = n * 10 ^ (k - e).toNat := by
  have hne : (10 : ℚ) ^ e ≠ 0 := (ten_zpow_pos e).ne'
  rw [ten_zpow_split hle, ← mul_assoc] at h
  exact_mod_cast mul_right_cancel₀ hne h

/-! ### Rounding -/

theorem Rounding.dropDigits_exact (r : Rounding) (negative : Bool) {c d : Nat} (hc : c ≠ 0)
    (h : 10 ^ d ∣ c) : r.dropDigits negative c d = c / 10 ^ d := by
  have hcount := Decimal.lt_digitCount_of_pow_le (Nat.le_of_dvd (Nat.pos_of_ne_zero hc) h)
  have hmin : min d (Decimal.digitCount c + 1) = d := by omega
  have hmod : c % tenTo d = 0 := Nat.mod_eq_zero_of_dvd h
  simp only [dropDigits, hmin, quotient, hmod, ↓reduceIte]
  rfl

/-- Rounding changes nothing if there are no more digits than the context keeps. -/
theorem Context.round_exact {ctx : Context} (negative : Bool) {c n : Nat} {e k : Int} (hc : c ≠ 0)
    (hvalue : (c : ℚ) * 10 ^ e = n * 10 ^ k) (hn : n < 10 ^ ctx.digits) (hk : ctx.tiny ≤ k)
    (hmax : k + ctx.digits ≤ maxExponent) :
    ∃ c' e', ctx.round negative c e = .ok (.finite negative c' e') ∧
      (c' : ℚ) * 10 ^ e' = c * 10 ^ e ∧ c' ≠ 0 ∧ c' < 10 ^ ctx.digits ∧ ctx.tiny ≤ e' := by
  obtain ⟨m, hcount, hle, hlt⟩ := Decimal.exists_digitCount hc
  have hleading := lt_add_of_mul_zpow_eq hle hn hvalue
  obtain ⟨target, htarget⟩ : ∃ target, target = max e (max ctx.tiny (e + m - ctx.digits + 1)) :=
    ⟨_, rfl⟩
  have hdvd : 10 ^ (target - e).toNat ∣ c := by
    rcases Int.le_total k e with hke | hke
    · have : (target - e).toNat = 0 := by omega
      rw [this]
      exact one_dvd c
    · rw [eq_mul_of_mul_zpow_eq hke hvalue]
      exact (pow_dvd_pow 10 (by omega)).mul_left n
  obtain ⟨c', rfl⟩ := hdvd
  have hc' : c' ≠ 0 := by
    rintro rfl
    exact hc (mul_zero _)
  have hsmall : c' < 10 ^ ctx.digits := by
    have hpow : 10 ^ (m + 1) ≤ 10 ^ ((target - e).toNat + ctx.digits) :=
      Nat.pow_le_pow_right (by decide) (by omega)
    rw [pow_add _ (target - e).toNat] at hpow
    exact Nat.lt_of_mul_lt_mul_left (hlt.trans_le hpow)
  have hdrop := ctx.rounding.dropDigits_exact negative hc (Nat.dvd_mul_right _ c')
  rw [Nat.mul_div_cancel_left c' (Nat.pow_pos (by decide))] at hdrop
  refine ⟨c', target, ?_, ?_, hc', hsmall, by omega⟩
  · rw [round, if_neg hc]
    have hplace : e + ((m + 1 : ℕ) : Int) - 1 = e + m := by push_cast; ring
    simp only [hcount, hplace, ← htarget, hdrop]
    rw [if_neg (by omega), if_pos (show c' < tenTo ctx.digits from hsmall)]
  · have hle : e ≤ target := by omega
    rw [ten_zpow_split hle, tenTo_eq]
    push_cast
    ring

namespace Decimal

theorem trimZeros_spec (c n : Nat) :
    (trimZeros c n).2 ≤ n ∧ (trimZeros c n).1 * 10 ^ (n - (trimZeros c n).2) = c := by
  fun_induction trimZeros c n with
  | case1 c => simp
  | case2 c n hc ih =>
    refine ⟨ih.1.trans (Nat.le_succ n), ?_⟩
    rw [Nat.succ_sub ih.1, pow_succ, ← mul_assoc, ih.2]
    omega
  | case3 c n hc => simp

theorem toRat?_eq_of_mul_zpow_eq {c c' : Nat} {e e' : Int} (negative : Bool)
    (h : (c : ℚ) * 10 ^ e = c' * 10 ^ e') :
    (finite negative c e).toRat? = (finite negative c' e').toRat? := by
  rw [toRat?_finite, toRat?_finite]
  cases negative with
  | false => exact congrArg some h
  | true =>
    rw [signed_true, signed_true]
    push_cast
    rw [neg_mul, neg_mul, h]

/-- What the value of a number says about its coefficient. -/
theorem natAbs_of_toRat? {negative : Bool} {c : Nat} {e k z : Int}
    (h : (finite negative c e).toRat? = some ((z : ℚ) * 10 ^ k)) :
    (c : ℚ) * 10 ^ e = z.natAbs * 10 ^ k := by
  rw [toRat?_finite, Option.some_inj] at h
  have habs : |((signed negative c : ℤ) : ℚ) * 10 ^ e| = |(z : ℚ) * 10 ^ k| := by rw [h]
  have hc : |((signed negative c : ℤ) : ℚ)| = c := by
    cases negative <;> simp [signed]
  rw [abs_mul, abs_mul, abs_of_pos (ten_zpow_pos e), abs_of_pos (ten_zpow_pos k), hc] at habs
  rw [habs, Nat.cast_natAbs, Int.cast_abs]

/-! ### Integers -/

theorem isIntegral_of_toRat? {a : Decimal} {z k : ℤ} (h : a.toRat? = some ((z : ℚ) * 10 ^ k))
    (hk : 0 ≤ k) : a.isIntegral = true := by
  cases a with
  | infinite | nan => cases h
  | finite negative c e =>
    simp only [isIntegral, Bool.or_eq_true, Bool.and_eq_true, decide_eq_true_eq]
    by_cases he : 0 ≤ e
    · exact .inl (.inl he)
    by_cases hc : c = 0
    · exact .inl (.inr hc)
    have hdvd : 10 ^ (-e).toNat ∣ c := by
      rw [eq_mul_of_mul_zpow_eq (by omega) (natAbs_of_toRat? h)]
      exact (pow_dvd_pow 10 (by omega)).mul_left _
    exact .inr ⟨lt_digitCount_of_pow_le (Nat.le_of_dvd (Nat.pos_of_ne_zero hc) hdvd),
      Nat.mod_eq_zero_of_dvd hdvd⟩

theorem magnitude_eq {negative : Bool} {c : Nat} {e : Int}
    (h : (finite negative c e).isIntegral = true) : (c : ℚ) * 10 ^ e = magnitude c e := by
  obtain ⟨z, hz⟩ := exists_of_isIntegral h
  have hvalue := natAbs_of_toRat? (k := 0) (by simpa using hz)
  rw [magnitude]
  split
  · rename_i he
    rw [ten_zpow_split he, sub_zero, zpow_zero, mul_one]
    push_cast
    rfl
  have heq := eq_mul_of_mul_zpow_eq (by omega) hvalue
  have hpow : 0 < 10 ^ (0 - e).toNat := Nat.pow_pos (by decide)
  rw [zpow_zero, mul_one] at hvalue
  rw [hvalue]
  split
  · rw [heq, ← zero_sub, tenTo_eq, Nat.mul_div_cancel _ hpow]
  · rename_i hcount
    have hzero : z.natAbs = 0 := by
      by_contra hne
      have hle : 10 ^ (0 - e).toNat ≤ c := by
        rw [heq]
        exact Nat.le_mul_of_pos_left _ (Nat.pos_of_ne_zero hne)
      have := lt_digitCount_of_pow_le hle
      rw [zero_sub] at this
      exact hcount this
    rw [hzero]

/-! ### Displaying -/

/-- An integer of few enough digits to be written out. -/
def IsShortInteger (a : Decimal) : Prop :=
  ∃ z : ℤ, a.toRat? = some (z : ℚ) ∧ z.natAbs < 10 ^ maxIntegerDigits

/-- At most as many digits as a fraction is displayed with, none of them below the smallest
exponent. -/
def HasFewDigits (a : Decimal) : Prop :=
  ∃ z k : ℤ, a.toRat? = some ((z : ℚ) * 10 ^ k) ∧ z.natAbs < 10 ^ Context.plain.digits ∧
    Context.plain.tiny ≤ k

theorem signed_and_ne_zero (negative : Bool) (n : Nat) :
    signed (negative && n != 0) n = signed negative n := by
  cases negative with
  | false => rfl
  | true => cases n <;> rfl

/-- A text with a sign is read as the number with that sign. -/
theorem ofText?_signText (negative : Bool) {s : List Char} {c : Nat} {e : Int}
    (h : IsPositional s) (hread : readMagnitude? s = some (c, e)) (hrange : readable c e = true) :
    ofText? (signText negative ++ s) = some (finite negative c e) := by
  have hpositive := ofText?_of_isPositional h hread hrange
  cases negative with
  | false => exact hpositive
  | true =>
    have hminus := Formula.ofText?_cons_minus h.isMagnitude
    rw [hpositive] at hminus
    exact hminus

theorem readable_of_lt_pow {c k : Nat} {e : Int} (hc : c < 10 ^ k) (hmin : minReadExponent ≤ e)
    (hmax : e + k ≤ maxReadExponent) : readable c e = true := by
  rw [readable, Bool.and_eq_true, decide_eq_true_eq, decide_eq_true_eq]
  refine ⟨hmin, ?_⟩
  split
  · omega
  · rename_i hne
    have := digitCount_le_of_lt_pow hne hc
    omega

theorem displayChars_of_isIntegral {negative : Bool} {c : Nat} {e : Int}
    (h : (finite negative c e).isIntegral = true) :
    (finite negative c e).displayChars =
      if magnitude c e < 10 ^ maxIntegerDigits then
        .ok (signText (negative && magnitude c e != 0) ++ digits (magnitude c e))
      else .error .integerTooLong := by
  have hvalue : (c : ℚ) * 10 ^ e = magnitude c e * 10 ^ (0 : ℤ) := by
    rw [zpow_zero, mul_one, magnitude_eq h]
  have hlength : (maxIntegerDigits : Int) < (if c = 0 then 1 else (digitCount c : Int) + e) ↔
      ¬ magnitude c e < 10 ^ maxIntegerDigits := by
    by_cases hc : c = 0
    · have hzero : magnitude c e = 0 := by simp [hc, magnitude]
      rw [if_pos hc, hzero]
      exact iff_of_false (by decide) (not_not.mpr (Nat.pow_pos (by decide)))
    obtain ⟨m, hcount, hle, hlt⟩ := exists_digitCount hc
    rw [if_neg hc, hcount]
    constructor
    · intro hlong hshort
      have := lt_add_of_mul_zpow_eq hle hshort hvalue
      omega
    · intro hlong
      have := lt_add_of_mul_zpow_eq (Nat.le_of_not_lt hlong) hlt hvalue.symm
      omega
  rw [displayChars, if_pos h]
  by_cases hshort : magnitude c e < 10 ^ maxIntegerDigits
  · rw [if_neg (fun hlong => hlength.mp hlong hshort), if_pos hshort]
  · rw [if_pos (hlength.mpr hshort), if_neg hshort]

theorem isShortInteger_iff {negative : Bool} {c : Nat} {e : Int} :
    (finite negative c e).IsShortInteger ↔
      (finite negative c e).isIntegral = true ∧ magnitude c e < 10 ^ maxIntegerDigits := by
  constructor
  · rintro ⟨z, hz, hsmall⟩
    have hz' : (finite negative c e).toRat? = some ((z : ℚ) * 10 ^ (0 : ℤ)) := by simpa using hz
    have hint := isIntegral_of_toRat? hz' le_rfl
    have habs := natAbs_of_toRat? hz'
    rw [magnitude_eq hint, zpow_zero, mul_one] at habs
    rw [Nat.cast_inj.mp habs]
    exact ⟨hint, hsmall⟩
  · rintro ⟨hint, hsmall⟩
    obtain ⟨z, hz⟩ := exists_of_isIntegral hint
    have hz' : (finite negative c e).toRat? = some ((z : ℚ) * 10 ^ (0 : ℤ)) := by simpa using hz
    have habs := natAbs_of_toRat? hz'
    rw [magnitude_eq hint, zpow_zero, mul_one] at habs
    exact ⟨z, hz, by rwa [← Nat.cast_inj.mp habs]⟩

/-- An integer that is displayed loses no digit. -/
theorem isShown_of_isShortInteger {a : Decimal} (h : a.IsShortInteger) : a.IsShown := by
  cases a with
  | infinite | nan =>
    obtain ⟨z, hz, -⟩ := h
    cases hz
  | finite negative c e =>
    obtain ⟨hint, hsmall⟩ := isShortInteger_iff.mp h
    have hdigits : ∀ d ∈ digits (magnitude c e), isAsciiDigit d = true :=
      fun d => isAsciiDigit_of_mem_digits
    have hread := readMagnitude?_digits (digits_ne_nil _) hdigits
    rw [digitsValue_digits] at hread
    have hrange : readable (magnitude c e) 0 = true :=
      readable_of_lt_pow hsmall (by decide) (by decide)
    have hshown := displayChars_of_isIntegral hint
    rw [if_pos hsmall] at hshown
    refine ⟨_, _, _, hshown, ofText?_signText _ (.of_digits (digits_ne_nil _) hdigits) hread hrange,
      rfl, ?_⟩
    rw [signed_and_ne_zero]
    refine toRat?_eq_of_mul_zpow_eq negative ?_
    rw [magnitude_eq hint, zpow_zero, mul_one]

/-- Normalizing divides powers of ten out of the coefficient of the rounded number. -/
theorem normalize_of_round {ctx : Context} {negative : Bool} {c c' : Nat} {e e' : Int}
    (h : ctx.round negative c e = .ok (finite negative c' e')) (hc' : c' ≠ 0) :
    ∃ n d : ℕ, normalize ctx (finite negative c e) = .ok (finite negative n (e' + d)) ∧
      n * 10 ^ d = c' := by
  obtain ⟨-, htrim⟩ := trimZeros_spec c' (Context.maxExponent - e').toNat
  refine ⟨_, _, ?_, htrim⟩
  rw [normalize, normalize.plusSigned, h]
  change (if c' = 0 then _ else _) = _
  rw [if_neg hc']
  rfl

/-- Normalizing a number of few digits changes its form only. -/
theorem normalize_of_hasFewDigits {negative : Bool} {c : Nat} {e : Int}
    (h : (finite negative c e).HasFewDigits)
    (hfraction : (finite negative c e).isIntegral = false) :
    ∃ c' e', normalize .plain (finite negative c e) = .ok (finite negative c' e') ∧
      (c' : ℚ) * 10 ^ e' = c * 10 ^ e ∧ c' < 10 ^ Context.plain.digits ∧
      Context.plain.tiny ≤ e' ∧ e' < 0 := by
  obtain ⟨z, k, hz, hsmall, hk⟩ := h
  have hc : c ≠ 0 := by
    rintro rfl
    simp [isIntegral] at hfraction
  have hneg : k < 0 := by
    by_contra hk
    rw [isIntegral_of_toRat? hz (by omega)] at hfraction
    cases hfraction
  have hmax : k + Context.plain.digits ≤ Context.maxExponent := by
    have : Context.plain.digits = 28 := rfl
    have : Context.maxExponent = 999999 := rfl
    omega
  obtain ⟨c₁, e₁, hround, hvalue, hc₁, hlt, htiny⟩ :=
    Context.round_exact negative hc (natAbs_of_toRat? hz) hsmall hk hmax
  obtain ⟨n, d, hnormal, rfl⟩ := normalize_of_round hround hc₁
  have hpow : (n : ℚ) * 10 ^ (e₁ + d) = c * 10 ^ e := by
    rw [← hvalue, zpow_add₀ (by norm_num), zpow_natCast]
    push_cast
    ring
  refine ⟨n, e₁ + d, hnormal, hpow, ?_, by omega, ?_⟩
  · exact (Nat.le_mul_of_pos_right n (Nat.pow_pos (by decide))).trans_lt hlt
  · by_contra hnonneg
    have hint : (finite negative c e).toRat? =
        some (((signed negative n : ℤ) : ℚ) * 10 ^ (e₁ + d)) :=
      toRat?_eq_of_mul_zpow_eq negative hpow.symm
    rw [isIntegral_of_toRat? hint (by omega)] at hfraction
    cases hfraction

theorem isShown_of_hasFewDigits {a : Decimal} (h : a.HasFewDigits)
    (hfraction : a.isIntegral = false) : a.IsShown := by
  cases a with
  | infinite | nan =>
    obtain ⟨z, k, hz, -⟩ := h
    cases hz
  | finite negative c e =>
    obtain ⟨c', e', hnormal, hvalue, hlt, htiny, hneg⟩ := normalize_of_hasFewDigits h hfraction
    have hdigits : ∀ d ∈ digits c', isAsciiDigit d = true := fun d => isAsciiDigit_of_mem_digits
    have hread := readMagnitude?_withPoint (digits_ne_nil c') hdigits (-e').toNat
    rw [digitsValue_digits, Int.toNat_of_nonneg (by omega), neg_neg] at hread
    have hrange : readable c' e' = true := by
      refine readable_of_lt_pow hlt ?_ ?_
      · exact le_trans (by decide) htiny
      · have : Context.plain.digits = 28 := rfl
        have : maxReadExponent = 999999999999999999 := rfl
        omega
    have hshown : (finite negative c e).displayChars =
        .ok (signText negative ++ withPoint (digits c') (-e').toNat) := by
      rw [displayChars, if_neg (by rw [hfraction]; decide), hnormal]
      change Except.ok (positional _) = _
      rw [positional, if_neg (by omega)]
    exact ⟨_, _, _, hshown,
      ofText?_signText negative (.withPoint (digits_ne_nil c') hdigits _) hread hrange, rfl,
      toRat?_eq_of_mul_zpow_eq negative hvalue.symm⟩

theorem isIntegral_of_isShortInteger {a : Decimal} (h : a.IsShortInteger) :
    a.isIntegral = true := by
  obtain ⟨z, hz, -⟩ := h
  exact isIntegral_of_toRat? (k := 0) (by simpa using hz) le_rfl

theorem isShown_of_fewDigits {a : Decimal} (h : a.IsShortInteger ∨ a.HasFewDigits)
    (hint : a.isIntegral = true → a.IsShortInteger) : a.IsShown := by
  cases hfraction : a.isIntegral with
  | true => exact isShown_of_isShortInteger (hint hfraction)
  | false =>
    rcases h with h | h
    · rw [isIntegral_of_isShortInteger h] at hfraction
      cases hfraction
    · exact isShown_of_hasFewDigits h hfraction

/-- Integers that are too long are not displayed. -/
theorem isShortInteger_of_displayChars {a : Decimal} {s : List Char} (h : a.displayChars = .ok s)
    (hint : a.isIntegral = true) : a.IsShortInteger := by
  cases a with
  | infinite | nan => cases hint
  | finite negative c e =>
    rw [displayChars_of_isIntegral hint] at h
    split at h
    · exact isShortInteger_iff.mpr ⟨hint, ‹_›⟩
    · cases h

end Decimal

end Reckon
