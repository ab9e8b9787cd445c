import Reckon.Proofs.AlikeOrder
import Reckon.Proofs.Words

/-!
# Numbers that can be displayed

A number is displayed unless it is an integer that is too long, or a fraction that rounding takes
out of the range of exponents (`exists_displayChars_of_isDisplayable`). A short integer, or a
fraction of few digits, is read back as the same number (`exists_number?_of_hasShortForm`).
-/

namespace Reckon

open Reckon.Text
open Reckon.Formula (number?)

/-! ### Rounding at the end of the range -/

/-- What is nearer to `q - 1` than to `q` is rounded to less than `q`. -/
theorem Rounding.quotient_halfEven_lt {n d q : Nat} (negative : Bool) (hd : 0 < d)
    (h : 2 * n + d < 2 * q * d) : halfEven.quotient negative n d < q := by
  have hn := Nat.div_add_mod n d
  have hlt : n / d < q := by
    rw [Nat.div_lt_iff_lt_mul hd]
    have : 2 * q * d = 2 * (q * d) := by ring
    omega
  rcases Nat.lt_or_ge (n / d + 1) q with hbelow | hlast
  · simp only [quotient]
    split_ifs <;> omega
  · obtain rfl : q = n / d + 1 := by omega
    have hhalf : 2 * (n % d) < d := by
      have : 2 * (n / d + 1) * d = 2 * (d * (n / d)) + 2 * d := by ring
      omega
    simp only [quotient, hhalf]
    split_ifs <;> omega

namespace Context
variable {ctx : Context} {c : Nat} {e : Int}

/-- Half a unit of the last digit below the first power of ten out of range: from here on a number
is rounded up to that power. -/
def overflowBound (ctx : Context) : ℚ :=
  10 ^ (maxExponent + 1) - 5 * 10 ^ (maxExponent - ctx.digits)

theorem overflowBound_le (ctx : Context) : ctx.overflowBound ≤ 10 ^ (maxExponent + 1) := by
  have := ten_zpow_pos (maxExponent - ctx.digits)
  rw [overflowBound]
  linarith

/-- The coefficient of a number below the bound, when its first digit is in the last place and `k`
digits are dropped. -/
theorem two_mul_add_lt_of_lt_overflowBound {k : Nat} (he : e + k = maxExponent - ctx.digits + 1)
    (h : (c : ℚ) * 10 ^ e < ctx.overflowBound) :
    2 * c + 10 ^ k < 2 * 10 ^ ctx.digits * 10 ^ k := by
  have hpow : (10 : ℚ) ^ e ≠ 0 := (ten_zpow_pos e).ne'
  have hfirst : (10 : ℚ) ^ (maxExponent + 1) = 10 ^ ctx.digits * 10 ^ k * 10 ^ e := by
    rw [← zpow_natCast, ← zpow_natCast, ← zpow_add₀ (by norm_num), ← zpow_add₀ (by norm_num)]
    congr 1
    omega
  have hlast : (10 : ℚ) * 10 ^ (maxExponent - ctx.digits) = 10 ^ k * 10 ^ e := by
    rw [← zpow_natCast, ← zpow_one_add₀ (by norm_num), ← zpow_add₀ (by norm_num)]
    congr 1
    omega
  have hlt : (2 * c + 10 ^ k : ℚ) * 10 ^ e < 2 * 10 ^ ctx.digits * 10 ^ k * 10 ^ e := by
    rw [overflowBound, hfirst] at h
    linarith
  exact_mod_cast lt_of_mul_lt_mul_right hlt (ten_zpow_pos e).le

/-- Rounding to the nearest number does not leave the range below the bound. -/
theorem exists_round_of_lt_overflowBound (negative : Bool) (hround : ctx.rounding = .halfEven)
    (h : (c : ℚ) * 10 ^ e < ctx.overflowBound) :
    ∃ c' e', ctx.round negative c e = .ok (.finite negative c' e') := by
  by_cases hc : c = 0
  · exact ⟨_, _, by rw [round, if_pos hc]⟩
  obtain ⟨m, hcount, hle, hlt⟩ := Decimal.exists_digitCount hc
  have hplace : e + m ≤ maxExponent := by
    have hfirst : ((10 ^ m : ℕ) : ℚ) * 10 ^ e < 10 ^ (maxExponent + 1) :=
      calc ((10 ^ m : ℕ) : ℚ) * 10 ^ e ≤ c * 10 ^ e :=
            mul_le_mul_of_nonneg_right (by exact_mod_cast hle) (ten_zpow_pos e).le
        _ < ctx.overflowBound := h
        _ ≤ 10 ^ (maxExponent + 1) := ctx.overflowBound_le
    rw [cast_ten_pow, ← zpow_add₀ (by norm_num), zpow_lt_zpow_iff_right₀ (by norm_num)] at hfirst
    omega
  have hleading : e + Decimal.digitCount c - 1 = e + m := by
    rw [hcount]
    push_cast
    ring
  rw [round_of_ne_zero hc, hleading, if_neg (by omega)]
  rcases hplace.lt_or_eq with hinside | hedge
  · rw [if_pos hinside]
    split_ifs
    · exact ⟨_, _, rfl⟩
    · exact ⟨_, _, rfl⟩
  -- the first digit is in the last place there is
  have htarget : max e (ctx.lastPlace (e + m)) = max e (maxExponent - ctx.digits + 1) := by
    have : maxExponent = 999999 := rfl
    have : minExponent = -999999 := rfl
    rw [lastPlace, tiny]
    omega
  refine ⟨_, _, if_pos ?_⟩
  rw [htarget, hround]
  rcases Int.le_total (maxExponent - ctx.digits + 1) e with hexact | hdrop
  · rw [max_eq_left hexact, sub_self, Int.toNat_zero, pow_zero, Rounding.quotient_one]
    exact hlt.trans_le (Nat.pow_le_pow_right (by decide) (by omega))
  · rw [max_eq_right hdrop]
    exact Rounding.quotient_halfEven_lt negative (Nat.pow_pos (by decide))
      (two_mul_add_lt_of_lt_overflowBound (by omega) h)

end Context

namespace Decimal
variable {a b : Decimal}

/-! ### Displaying -/

theorem IsPositional.isWord {s : List Char} (h : IsPositional s) : IsWord s where
  ne_nil := Formula.isMagnitude_ne_nil h.isMagnitude
  isBlank _ hc := Formula.isBlank_of_mem_isMagnitude h.isMagnitude hc

/-- A displayed number is one word. -/
theorem isWord_of_displayChars {s : List Char} (h : a.displayChars = .ok s) : IsWord s := by
  cases a with
  | nan =>
    cases h
    exact ⟨by decide, by decide⟩
  | infinite negative =>
    cases h
    cases negative with
    | false => exact ⟨by decide, by decide⟩
    | true => exact ⟨by decide, by decide⟩
  | finite negative c e =>
    obtain ⟨t, ht, hs⟩ := exists_displayChars h
    rcases hs with rfl | ⟨rfl, -, -⟩
    · exact ht.isWord
    · exact ⟨List.cons_ne_nil _ _, List.forall_mem_cons.mpr ⟨by decide, ht.isWord.isBlank⟩⟩

theorem exists_normalize_of_round {ctx : Context} {negative : Bool} {c c' : Nat} {e e' : Int}
    (h : ctx.round negative c e = .ok (finite negative c' e')) :
    ∃ a, normalize ctx (finite negative c e) = .ok a := by
  by_cases hc' : c' = 0
  · refine ⟨finite negative 0 0, ?_⟩
    rw [normalize, normalize.plusSigned, h]
    exact if_pos hc'
  · obtain ⟨n, d, hnormal, -⟩ := normalize_of_round h hc'
    exact ⟨_, hnormal⟩

/-- A short integer, or a fraction that is not rounded out of range. -/
def IsDisplayable (a : Decimal) : Prop :=
  a.IsShortInteger ∨
    a.isIntegral = false ∧ ∃ q, a.toRat? = some q ∧ |q| < Context.plain.overflowBound

theorem exists_displayChars_of_isDisplayable (h : a.IsDisplayable) :
    ∃ s, a.displayChars = .ok s := by
  rcases h with hshort | ⟨hfraction, q, hq, hlt⟩
  · obtain ⟨s, -, -, hs, -⟩ := isShown_of_isShortInteger hshort
    exact ⟨s, hs⟩
  cases a with
  | infinite | nan => cases hq
  | finite negative c e =>
    have habs : |q| = c * 10 ^ e := by
      rw [toRat?_finite, Option.some_inj] at hq
      rw [← hq, abs_mul, abs_of_pos (ten_zpow_pos e)]
      cases negative <;> simp [signed]
    obtain ⟨c', e', hround⟩ :=
      Context.exists_round_of_lt_overflowBound negative rfl (habs ▸ hlt)
    obtain ⟨b, hb⟩ := exists_normalize_of_round hround
    refine ⟨b.positional, ?_⟩
    rw [displayChars, if_neg (by rw [hfraction]; decide), hb]
    rfl

/-- A fraction whose first digit is out of range is not displayed. -/
theorem displayChars_of_overflow {negative : Bool} {c : Nat} {e : Int}
    (hfraction : (finite negative c e).isIntegral = false)
    (hlarge : Context.maxExponent < e + digitCount c - 1) :
    (finite negative c e).displayChars = .error (.signal .overflow) := by
  have hc : c ≠ 0 := by
    rintro rfl
    simp [isIntegral] at hfraction
  have hround : Context.plain.round negative c e = .error .overflow := by
    rw [Context.round_of_ne_zero hc, if_pos hlarge]
  rw [displayChars, if_neg (by rw [hfraction]; decide), normalize, normalize.plusSigned, hround]
  rfl

/-! ### Reading back -/

theorem natAbs_signed (negative : Bool) (n : Nat) : (signed negative n).natAbs = n := by
  cases negative <;> simp [signed]

/-- Numbers of one value are the same number. -/
theorem same_of_toRat?_eq {q : ℚ} (ha : a.toRat? = some q) (hb : b.toRat? = some q) :
    a.same b = true := by
  cases a with
  | infinite | nan => cases ha
  | finite m c e =>
    cases b with
    | infinite | nan => cases hb
    | finite n d k =>
      have hvalue : (signed m c : ℚ) * 10 ^ e = signed n d * 10 ^ k :=
        Option.some.inj (ha.trans hb.symm)
      have hsize : (c : ℚ) * 10 ^ e = d * 10 ^ k := by
        have habs := natAbs_of_toRat? (ha.trans hb.symm)
        rwa [natAbs_signed] at habs
      have hzero := eq_zero_iff_of_mul_zpow_eq hsize
      by_cases hc : c = 0
      · simp [same, compare?, hc, hzero.mp hc]
      have hsign : m = n := by
        have hpos : (0 : ℚ) < c * 10 ^ e :=
          mul_pos (by exact_mod_cast Nat.pos_of_ne_zero hc) (ten_zpow_pos e)
        by_contra hne
        cases m <;> cases n <;> simp [signed] at hne hvalue <;> linarith
      subst hsign
      cases m <;> simp [same, compare?, hc, mt hzero.mpr hc, compareMagnitude_eq_compare, hsize]

/-- A short integer, or a fraction of few digits. -/
def HasShortForm (a : Decimal) : Prop :=
  a.IsShortInteger ∨ a.isIntegral = false ∧ a.HasFewDigits

theorem isShown_of_hasShortForm (h : a.HasShortForm) : a.IsShown := by
  rcases h with hshort | ⟨hfraction, hfew⟩
  · exact isShown_of_isShortInteger hshort
  · exact isShown_of_hasFewDigits hfew hfraction

/-- The displayed number is read as the same number. -/
theorem exists_number?_of_hasShortForm (h : a.HasShortForm) :
    ∃ s b, a.displayChars = .ok s ∧ number? s = some b ∧ a.same b = true := by
  have hshown := isShown_of_hasShortForm h
  obtain ⟨s, b, q, hs, hb, hbq, haq⟩ := hshown
  refine ⟨s, b, hs, ?_, same_of_toRat?_eq haq hbq⟩
  rw [number?, if_pos ?_, hb]
  obtain ⟨l, -, hl⟩ := exists_literal (isShown_of_hasShortForm h)
  rcases hl with ⟨hl, -⟩ | ⟨hl, -⟩
  · obtain rfl : s = l.chars := by rw [hs] at hl; exact Except.ok.inj hl
    exact Formula.isNumber_of_isMagnitude l.isMagnitude
  · obtain rfl : s = '-' :: l.chars := by rw [hs] at hl; exact Except.ok.inj hl
    exact Formula.isNumber_cons l.isMagnitude (.inr rfl)

/-- There are fractions that can be read and not displayed. -/
theorem exists_number?_of_overflow :
    ∃ s a, IsWord s ∧ number? s = some a ∧ a.isIntegral = false ∧
      a.displayChars = .error (.signal .overflow) := by
  obtain ⟨n, hn⟩ : ∃ n, n = 1000000 := ⟨_, rfl⟩
  have hdigits : ∀ d ∈ digits (10 ^ (n + 1) + 5), isAsciiDigit d = true :=
    fun d => isAsciiDigit_of_mem_digits
  have hpositional := IsPositional.withPoint (digits_ne_nil (10 ^ (n + 1) + 5)) hdigits 1
  have hread := readMagnitude?_withPoint (digits_ne_nil (10 ^ (n + 1) + 5)) hdigits 1
  rw [digitsValue_digits] at hread
  have hsmall : 10 ^ (n + 1) + 5 < 10 ^ (n + 2) := by
    have : 10 ^ 1 ≤ 10 ^ (n + 1) := Nat.pow_le_pow_right (by decide) (by omega)
    rw [pow_succ 10 (n + 1)]
    omega
  have hrange : readable (10 ^ (n + 1) + 5) (-(1 : ℕ)) = true := by
    refine readable_of_lt_pow hsmall (by decide) ?_
    rw [maxReadExponent]
    omega
  have hfraction : (finite false (10 ^ (n + 1) + 5) (-(1 : ℕ))).isIntegral = false := by
    have hmod : (10 ^ (n + 1) + 5) % tenTo 1 = 5 := by
      rw [tenTo_eq, pow_one, pow_succ, Nat.mul_add_mod_self_right]
    simp [isIntegral, hmod]
  refine ⟨_, _, hpositional.isWord, ?_, hfraction, displayChars_of_overflow hfraction ?_⟩
  · rw [number?, if_pos (Formula.isNumber_of_isMagnitude hpositional.isMagnitude)]
    exact ofText?_of_isPositional hpositional hread hrange
  · have hcount : n + 1 < digitCount (10 ^ (n + 1) + 5) :=
      lt_digitCount_of_pow_le (Nat.le_add_right _ _)
    rw [Context.maxExponent]
    omega

end Decimal

end Reckon
