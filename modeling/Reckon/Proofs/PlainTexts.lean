import Reckon.Proofs.RoundedOnce
import Reckon.Session.Calculator
import Reckon.Formula.Printer
import Reckon.Tree.Notation

/-!
# Plain texts of numbers

A number is displayed as digits, with a minus if need be and a point if there is a fraction, which
then does not end in a zero (`PlainText`). Read again the text is the number itself if that is an
integer, and the number rounded to the digits of the plain context otherwise
(`Decimal.displayed_number`).
-/

namespace Reckon

open Reckon.Text

/-- Digits, perhaps with a minus in front, and with a point behind them if more digits follow, the
last of which is no zero. -/
structure PlainText where
  negative : Bool
  whole : List Char
  fraction : List Char
  whole_ne_nil : whole ≠ []
  isDigit_whole : ∀ c ∈ whole, isAsciiDigit c = true
  isDigit_fraction : ∀ c ∈ fraction, isAsciiDigit c = true
  getLast?_fraction : fraction.getLast? ≠ some '0'

namespace PlainText

def chars (t : PlainText) : List Char :=
  Decimal.signText t.negative ++ (t.whole ++ if t.fraction = [] then [] else '.' :: t.fraction)

/-- The text of an integer. -/
def ofDigits (negative : Bool) (s : List Char) (hs : s ≠ []) (h : ∀ c ∈ s, isAsciiDigit c = true) :
    PlainText where
  negative := negative
  whole := s
  fraction := []
  whole_ne_nil := hs
  isDigit_whole := h
  isDigit_fraction := by simp
  getLast?_fraction := by simp

theorem chars_ofDigits {negative : Bool} {s : List Char} {hs : s ≠ []}
    {h : ∀ c ∈ s, isAsciiDigit c = true} :
    (ofDigits negative s hs h).chars = Decimal.signText negative ++ s := by
  simp [chars, ofDigits]

end PlainText

namespace Decimal

/-! ### The last digit -/

theorem digitsOnto_append (n : Nat) (acc t : List Char) :
    digitsOnto n (acc ++ t) = digitsOnto n acc ++ t := by
  fun_induction digitsOnto n acc with
  | case1 n acc hn => rw [digitsOnto, if_pos hn, List.cons_append]
  | case2 n acc hn ih => rw [digitsOnto.eq_1, if_neg hn, ← List.cons_append, ih]

theorem getLast?_digits (n : Nat) : (digits n).getLast? = some (digitChar (n % 10)) := by
  rw [digits, digitsOnto]
  split
  · rename_i hn
    rw [Nat.mod_eq_of_lt hn, List.getLast?_singleton]
  · rw [← List.nil_append [digitChar (n % 10)], digitsOnto_append, List.getLast?_concat]

theorem digitChar_ne_zero {d : Nat} (hd : d < 10) (h : d ≠ 0) : digitChar d ≠ '0' := by
  have : ∀ d < 10, d ≠ 0 → digitChar d ≠ '0' := by decide
  exact this d hd h

/-- The digits of a number that is no multiple of ten, with the point in front of the last `k`. -/
theorem exists_withPoint (negative : Bool) {n k : Nat} (hn : n % 10 ≠ 0) (hk : 0 < k) :
    ∃ t : PlainText, signText negative ++ withPoint (digits n) k = t.chars := by
  have hdigits : ∀ c ∈ digits n, isAsciiDigit c = true := fun c => isAsciiDigit_of_mem_digits
  have hlast : (digits n).getLast? ≠ some '0' := by
    rw [getLast?_digits]
    exact fun h => digitChar_ne_zero (Nat.mod_lt n (by decide)) hn (Option.some.inj h)
  rw [withPoint, if_neg hk.ne']
  split
  · rename_i hlt
    have hdrop : (digits n).drop ((digits n).length - k) ≠ [] := by
      rw [ne_eq, List.drop_eq_nil_iff]
      omega
    refine ⟨⟨negative, (digits n).take ((digits n).length - k),
      (digits n).drop ((digits n).length - k), ?_, fun c hc => hdigits c (List.mem_of_mem_take hc),
      fun c hc => hdigits c (List.mem_of_mem_drop hc), ?_⟩, ?_⟩
    · rw [ne_eq, ← List.length_eq_zero_iff, List.length_take]
      omega
    · rwa [List.getLast?_drop, if_neg (by omega)]
    · rw [PlainText.chars, if_neg hdrop]
  · have hne : List.replicate (k - (digits n).length) '0' ++ digits n ≠ [] :=
      List.append_ne_nil_of_right_ne_nil _ (digits_ne_nil n)
    refine ⟨⟨negative, ['0'], List.replicate (k - (digits n).length) '0' ++ digits n, by simp,
      by decide, ?_, ?_⟩, ?_⟩
    · intro c hc
      rcases List.mem_append.mp hc with hc | hc
      · rw [List.eq_of_mem_replicate hc]
        decide
      · exact hdigits c hc
    · rwa [List.getLast?_append_of_ne_nil _ (digits_ne_nil n)]
    · rw [PlainText.chars, if_neg hne]
      rfl

/-- The text of a number whose coefficient is no multiple of ten is plain. -/
theorem exists_positional_eq_chars (negative : Bool) {n : Nat} {k : Int} (h : 0 ≤ k ∨ n % 10 ≠ 0) :
    ∃ t : PlainText, (finite negative n k).positional = t.chars := by
  rw [positional]
  split
  · have hdigits : ∀ c ∈ digits n ++ List.replicate k.toNat '0', isAsciiDigit c = true := by
      intro c hc
      rcases List.mem_append.mp hc with hc | hc
      · exact isAsciiDigit_of_mem_digits hc
      · rw [List.eq_of_mem_replicate hc]
        decide
    have hne := List.append_ne_nil_of_left_ne_nil (digits_ne_nil n) (List.replicate k.toNat '0')
    exact ⟨.ofDigits negative _ hne hdigits, PlainText.chars_ofDigits.symm⟩
  · rename_i hneg
    exact exists_withPoint negative (h.resolve_left hneg) (by omega)

/-! ### Reading -/

/-- The text of a number is read as the number. -/
theorem ofText?_positional (negative : Bool) {n : Nat} {k : Int} (h : readable n k = true)
    (h' : 0 ≤ k → readable (n * 10 ^ k.toNat) 0 = true) :
    ∃ b, ofText? (finite negative n k).positional = some b ∧
      b.toRat? = (finite negative n k).toRat? := by
  have hdigits : ∀ c ∈ digits n, isAsciiDigit c = true := fun c => isAsciiDigit_of_mem_digits
  rw [positional]
  split
  · rename_i hk
    have hall : ∀ c ∈ digits n ++ List.replicate k.toNat '0', isAsciiDigit c = true := by
      intro c hc
      rcases List.mem_append.mp hc with hc | hc
      · exact hdigits c hc
      · rw [List.eq_of_mem_replicate hc]
        decide
    have hne : digits n ++ List.replicate k.toNat '0' ≠ [] :=
      List.append_ne_nil_of_left_ne_nil (digits_ne_nil n) _
    have hzeros : ∀ c ∈ List.replicate k.toNat '0', isDigit c = true := by
      intro c hc
      rw [List.eq_of_mem_replicate hc]
      decide
    have hread := readMagnitude?_digits hne hall
    rw [digitsValue_append hzeros, digitsValue_digits, List.length_replicate,
      digitsValue_replicate_zero, Nat.add_zero] at hread
    refine ⟨_, ofText?_signText negative (.of_digits hne hall) hread (h' hk), ?_⟩
    refine toRat?_eq_of_mul_zpow_eq negative ?_
    rw [ten_zpow_split hk, sub_zero, zpow_zero, mul_one, mul_one, tenTo_eq]
    push_cast
    rfl
  · rename_i hk
    have hread := readMagnitude?_withPoint (digits_ne_nil n) hdigits (-k).toNat
    rw [digitsValue_digits, Int.toNat_of_nonneg (by omega), neg_neg] at hread
    exact ⟨_, ofText?_signText negative (.withPoint (digits_ne_nil n) hdigits _) hread h, rfl⟩

/-! ### Normal forms -/

/-- Trimming stops at a digit that is no zero. -/
theorem trimZeros_mod {c : Nat} (hc : c ≠ 0) (n : Nat) :
    (trimZeros c n).2 = 0 ∨ (trimZeros c n).1 % 10 ≠ 0 := by
  fun_induction trimZeros c n with
  | case1 c => exact .inl rfl
  | case2 c n hmod ih => exact ih (by omega)
  | case3 c n hmod => exact .inr hmod

/-- A rounded number has no digit below the smallest exponent. -/
theorem tiny_le_of_round {ctx : Context} {negative m : Bool} {c c' : Nat} {e e' : Int}
    (h : ctx.round negative c e = .ok (finite m c' e')) : ctx.tiny ≤ e' := by
  by_cases hc : c = 0
  · rw [hc, Context.round, if_pos rfl] at h
    cases h
    exact le_max_left _ _
  have htarget : ctx.tiny ≤ max e (ctx.lastPlace (e + digitCount c - 1)) :=
    (le_max_left _ _).trans (le_max_right _ _)
  rw [Context.round_of_ne_zero hc] at h
  split at h
  · cases h
  split at h
  · cases h
    exact htarget
  split at h
  · cases h
    omega
  · cases h

/-- A number in normal form: rounded, and without zeros that could be dropped. -/
theorem normalize_spec {ctx : Context} (hctx : 0 < ctx.digits) {negative : Bool} {c : Nat} {e : Int}
    {b : Decimal} (h : normalize ctx (finite negative c e) = .ok b) :
    ∃ n k, b = finite negative n k ∧ (0 ≤ k ∨ n % 10 ≠ 0) ∧ (n = 0 → k = 0) ∧
      min 0 ctx.tiny ≤ k ∧ (n : ℚ) * 10 ^ k < 10 ^ (Context.maxExponent + 1) ∧
      b.toRat? = some (ctx.fit (signed negative c * 10 ^ e)) := by
  obtain ⟨a, ha, hb⟩ := bind_eq_ok_iff.mp h
  have hround : ctx.round negative c e = .ok a := ha
  obtain ⟨c', e', rfl⟩ := round_eq_finite hround
  have hrounds := Context.rounds_round hctx negative c e
  have hvalue := hrounds.toRat?_eq hround
  have htiny := tiny_le_of_round hround
  have hsize : (c' : ℚ) * 10 ^ e' < 10 ^ (Context.maxExponent + 1) := by
    have hlt := hrounds.abs_fit_lt hround
    rw [toRat?_finite, Option.some_inj] at hvalue
    rw [← hvalue, abs_mul, abs_of_pos (ten_zpow_pos e')] at hlt
    cases negative <;> simpa [signed] using hlt
  simp only at hb
  split at hb
  · rename_i hzero
    cases hb
    refine ⟨0, 0, rfl, .inl le_rfl, fun _ => rfl, min_le_left _ _, ?_, ?_⟩
    · rw [Nat.cast_zero, zero_mul]
      exact ten_zpow_pos _
    · rw [← hvalue, hzero]
      exact toRat?_eq_of_mul_zpow_eq negative (by simp)
  · rename_i hne
    obtain ⟨hleft, htrim⟩ := trimZeros_spec c' (Context.maxExponent - e').toNat
    have hmod := trimZeros_mod hne (Context.maxExponent - e').toNat
    have hmax : (0 : Int) ≤ Context.maxExponent := by decide
    obtain ⟨room, hroom⟩ : ∃ room, room = (Context.maxExponent - e').toNat := ⟨_, rfl⟩
    rw [← hroom] at hleft htrim hmod hb
    have hsame : ((trimZeros c' room).1 : ℚ) * 10 ^ (e' + (room - (trimZeros c' room).2 : ℕ)) =
        c' * 10 ^ e' := by
      conv_rhs => rw [← htrim]
      rw [zpow_add₀ (by norm_num), zpow_natCast]
      push_cast
      ring
    cases hb
    refine ⟨_, _, rfl, hmod.imp_left fun hzero => ?_, fun hzero => ?_, by omega, hsame ▸ hsize, ?_⟩
    · rw [hzero]
      omega
    · rw [hzero, Nat.zero_mul] at htrim
      exact absurd htrim.symm hne
    · rw [← hvalue]
      exact toRat?_eq_of_mul_zpow_eq negative hsame

/-! ### Displayed numbers -/

/-- A number in the range of exponents can be read. -/
theorem readable_of_lt {n : Nat} {k : Int} (hk : minReadExponent ≤ k) (hzero : n = 0 → k = 0)
    (h : (n : ℚ) * 10 ^ k < 10 ^ (Context.maxExponent + 1)) : readable n k = true := by
  have hmax : Context.maxExponent ≤ maxReadExponent := by decide
  rw [readable, Bool.and_eq_true, decide_eq_true_eq, decide_eq_true_eq]
  refine ⟨hk, ?_⟩
  split
  · rename_i hn
    rw [hzero hn]
    decide
  · rename_i hn
    obtain ⟨m, hm, hle, -⟩ := exists_digitCount hn
    have hlt := (zpow_lt_zpow_iff_right₀ (by norm_num : (1 : ℚ) < 10)).mp
      ((zpow_le_of_digitCount hle k).trans_lt h)
    omega

/-- The text of a number is plain. Read again it is the number, rounded if that is a fraction. -/
theorem displayed_number {a : Decimal} {q : ℚ} (ha : a.toRat? = some q) {s : List Char}
    (hs : a.displayChars = .ok s) :
    ∃ (t : PlainText) (b : Decimal), s = t.chars ∧ ofText? s = some b ∧
      b.toRat? = some (if a.isIntegral = true then q else Context.plain.fit q) := by
  cases a with
  | infinite | nan => cases ha
  | finite negative c e =>
    split
    · rename_i hint
      have hdigits : ∀ d ∈ digits (magnitude c e), isAsciiDigit d = true :=
        fun d => isAsciiDigit_of_mem_digits
      obtain ⟨s', b, q', hs', hb, hbq, hq⟩ :=
        isShown_of_isShortInteger (isShortInteger_of_displayChars hs hint)
      obtain rfl : s = s' := by
        rw [hs] at hs'
        exact Except.ok.inj hs'
      rw [displayChars_of_isIntegral hint] at hs
      split at hs
      · refine ⟨.ofDigits (negative && magnitude c e != 0) _ (digits_ne_nil _) hdigits, b, ?_, hb,
          hbq.trans (hq.symm.trans ha)⟩
        rw [PlainText.chars_ofDigits]
        exact (Except.ok.inj hs).symm
      · cases hs
    · rename_i hfraction
      rw [displayChars, if_neg hfraction] at hs
      obtain ⟨b, hb, hs⟩ := bind_eq_ok_iff.mp hs
      have hb : (normalize .plain (finite negative c e)).mapError Failure.signal = .ok b := hb
      have hnormal := mapError_eq_ok_iff.mp hb
      cases hs
      obtain ⟨n, k, rfl, hlast, hzero, hk, hsize, hvalue⟩ := normalize_spec (by decide) hnormal
      have hmin : minReadExponent ≤ k := le_trans (by decide) hk
      obtain ⟨t, ht⟩ := exists_positional_eq_chars negative hlast
      obtain ⟨b, hread, hb⟩ := ofText?_positional negative
        (readable_of_lt hmin hzero hsize) fun hk => readable_of_lt (by decide) (fun _ => rfl) (by
          rw [zpow_zero, mul_one]
          rw [ten_zpow_split hk, sub_zero, zpow_zero, mul_one, tenTo_eq] at hsize
          exact_mod_cast hsize)
      rw [toRat?_finite, Option.some_inj] at ha
      rw [ha] at hvalue
      exact ⟨t, b, ht, hread, hb.trans hvalue⟩

end Decimal

namespace Calculator

/-- The value of a formula that a calculator finds: that of its evaluator, or that for a given
unit. -/
def value (bindings : Bindings) (unit : Option String) (f : List Char) (c : Calculator) :
    Except Failure Decimal :=
  match unit with
  | none => ((Evaluator.evaluate bindings f c.stack).run c.evaluator).1
  | some name => AngleUnit.read name >>= fun unit =>
    ((Evaluator.evaluate bindings f c.stack).run (.new unit)).1

theorem fst_run_evaluate (bindings : Bindings) (unit : Option String) (f : List Char)
    (c : Calculator) :
    ((evaluate bindings unit f).run c).1 = valueAnswer (c.value bindings unit f) := by
  cases unit with
  | none => rfl
  | some name => rfl

/-- The value is answered as it is displayed. -/
theorem run_evaluate_of_display {bindings : Bindings} {unit : Option String} {f : List Char}
    {c : Calculator} {a : Decimal} {text : String} (ha : c.value bindings unit f = .ok a)
    (htext : a.display = .ok text) :
    ((evaluate bindings unit f).run c).1 = .ok (.result text) := by
  rw [fst_run_evaluate, ha]
  change Except.map Answer.result a.display = _
  rw [htext]
  rfl

end Calculator

namespace Decimal

/-- A number that can be displayed has a plain text, which trees and answers show. It is that of the
number itself if this is an integer or has no more digits than the plain context keeps, and of the
number rounded to these otherwise. -/
theorem displayed_everywhere {a : Decimal} {q : ℚ} (ha : a.toRat? = some q)
    (h : a.IsDisplayable) :
    ∃ (t : PlainText) (b : Decimal), ofText? t.chars = some b ∧
      b.toRat? = some (if a.isIntegral = true then q else Context.plain.fit q) ∧
      (a.isIntegral = true ∨ Context.plain.Fits q → b.toRat? = some q) ∧
      (Tree.number a).formula = .ok t.chars ∧ (Tree.number a).bracketed = .ok t.chars ∧
      ∀ (c : Calculator) (bindings : Bindings) (unit : Option String) (f : List Char),
        c.value bindings unit f = .ok a →
        ((Calculator.evaluate bindings unit f).run c).1 =
          .ok (.result (String.ofList t.chars)) := by
  obtain ⟨s, hs⟩ := exists_displayChars_of_isDisplayable h
  obtain ⟨t, b, rfl, hb, hvalue⟩ := displayed_number ha hs
  refine ⟨t, b, hb, hvalue, ?_, hs, hs, fun c bindings unit f hf => ?_⟩
  · rintro (hint | hfits)
    · rw [hvalue, if_pos hint]
    · rw [hvalue, hfits.fit_eq, ite_self]
  · refine Calculator.run_evaluate_of_display hf ?_
    rw [display, hs]
    rfl

/-- A fraction of no more digits than sums keep can be displayed. -/
theorem isDisplayable_of_fits {a : Decimal} {q : ℚ} (ha : a.toRat? = some q)
    (hfraction : a.isIntegral = false) (h : Context.working.Fits q) : a.IsDisplayable := by
  obtain ⟨z, k, rfl, hsmall, -⟩ := h
  have hk : k < 0 := by
    by_contra hk
    rw [isIntegral_of_toRat? ha (not_lt.mp hk)] at hfraction
    cases hfraction
  refine .inr ⟨hfraction, _, ha, ?_⟩
  have hcoefficient : |(z : ℚ)| ≤ 10 ^ (50 : ℤ) := by
    rw [← Int.cast_abs, ← Int.natCast_natAbs]
    exact_mod_cast hsmall.le
  have hbound : (10 : ℚ) ^ Context.maxExponent < Context.plain.overflowBound := by
    have hunit : (10 : ℚ) ^ (Context.maxExponent - Context.plain.digits) ≤
        10 ^ Context.maxExponent :=
      zpow_le_zpow_right₀ (by norm_num) (by omega)
    have := ten_zpow_pos Context.maxExponent
    rw [Context.overflowBound, zpow_add_one₀ (by norm_num)]
    linarith
  calc |(z : ℚ) * 10 ^ k| = |(z : ℚ)| * 10 ^ k := by rw [abs_mul, abs_of_pos (ten_zpow_pos k)]
    _ ≤ 10 ^ (50 : ℤ) * 1 :=
        mul_le_mul hcoefficient (zpow_le_one_of_nonpos₀ (by norm_num) hk.le) (ten_zpow_pos k).le
          (ten_zpow_pos _).le
    _ ≤ 10 ^ Context.maxExponent := by
        rw [mul_one]
        exact zpow_le_zpow_right₀ (by norm_num) (by decide)
    _ < Context.plain.overflowBound := hbound

/-- A fraction with a zero at its end. -/
theorem displayed_everywhere_fraction :
    ∃ (t : PlainText) (b : Decimal), ofText? t.chars = some b ∧ b.toRat? = some (-(5 / 2)) ∧
      (Tree.number (finite true 250 (-2))).formula = .ok t.chars := by
  have ha : (finite true 250 (-2)).toRat? = some (-(5 / 2)) := by
    rw [toRat?_finite]
    norm_num [signed]
  have hfits : ∀ ctx : Context, 25 < 10 ^ ctx.digits → ctx.tiny ≤ -1 → ctx.Fits (-(5 / 2)) :=
    fun ctx hdigits htiny => ⟨-25, -1, by norm_num, hdigits, htiny⟩
  have hshown : (finite true 250 (-2)).IsDisplayable :=
    isDisplayable_of_fits ha (by simp [isIntegral]) (hfits _ (by decide) (by decide))
  obtain ⟨t, b, hb, -, hexact, hformula, -⟩ := displayed_everywhere ha hshown
  exact ⟨t, b, hb, hexact (.inr (hfits _ (by decide) (by decide))), hformula⟩

end Decimal

end Reckon
