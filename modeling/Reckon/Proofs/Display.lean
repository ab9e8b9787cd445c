import Reckon.Proofs.DecimalValue
import Reckon.Proofs.Phrase
import Reckon.Proofs.Results

/-!
# Numbers as they are displayed

A displayed number is a literal, with a minus in front if it is negative (`exists_literal`), as long
as no digit is lost: the number `IsShown`.
-/

namespace Reckon

open Reckon.Text
open Reckon.Formula (Literal isMagnitude)

/-- The characters of displayed numbers. -/
def isNumeral (c : Char) : Bool :=
  isAsciiDigit c || c = '.'

namespace Formula

theorem isMagnitude_of_digits {s : List Char} (hs : s ≠ []) (h : ∀ c ∈ s, isDigit c = true) :
    isMagnitude s = true := by
  have htake : s.takeWhile isDigit = s := List.takeWhile_eq_self_iff.mpr h
  have hdrop : s.dropWhile isDigit = [] := List.dropWhile_eq_nil_iff.mpr h
  rw [isMagnitude, htake, hdrop]
  simpa using hs

theorem isMagnitude_of_point {s t : List Char} (hs : s ≠ []) (h : ∀ c ∈ s, isDigit c = true)
    (ht : ∀ c ∈ t, isDigit c = true) : isMagnitude (s ++ '.' :: t) = true := by
  have hpoint : ¬ isDigit '.' = true := by decide
  have htake : (s ++ '.' :: t).takeWhile isDigit = s := by
    rw [List.takeWhile_append_of_pos h, List.takeWhile_cons_of_neg hpoint, List.append_nil]
  have hdrop : (s ++ '.' :: t).dropWhile isDigit = '.' :: t := by
    rw [List.dropWhile_append_of_pos h, List.dropWhile_cons_of_neg hpoint]
  rw [isMagnitude, htake, hdrop]
  simpa [hs] using ht

end Formula

namespace Decimal

/-! ### Digits -/

theorem isAsciiDigit_digitChar {d : Nat} (h : d < 10) : isAsciiDigit (digitChar d) = true := by
  have : ∀ d < 10, isAsciiDigit (digitChar d) = true := by decide
  exact this d h

theorem mem_digitsOnto {n : Nat} {acc : List Char} {c : Char} (h : c ∈ digitsOnto n acc) :
    isAsciiDigit c = true ∨ c ∈ acc := by
  fun_induction digitsOnto n acc with
  | case1 n acc hn =>
    rcases List.mem_cons.mp h with rfl | h
    · exact .inl (isAsciiDigit_digitChar hn)
    · exact .inr h
  | case2 n acc hn ih =>
    rcases ih h with h | h
    · exact .inl h
    rcases List.mem_cons.mp h with rfl | h
    · exact .inl (isAsciiDigit_digitChar (Nat.mod_lt n (by decide)))
    · exact .inr h

theorem isAsciiDigit_of_mem_digits {n : Nat} {c : Char} (h : c ∈ digits n) :
    isAsciiDigit c = true := by
  rcases mem_digitsOnto h with h | h
  · exact h
  · cases h

theorem digitsOnto_ne_nil (n : Nat) (acc : List Char) : digitsOnto n acc ≠ [] := by
  fun_induction digitsOnto n acc with
  | case1 => exact List.cons_ne_nil _ _
  | case2 n acc hn ih => exact ih

theorem digits_ne_nil (n : Nat) : digits n ≠ [] :=
  digitsOnto_ne_nil n []

/-- A text of digits, perhaps with a point behind one of them. -/
structure IsPositional (s : List Char) : Prop where
  isMagnitude : Formula.isMagnitude s = true
  isNumeral : ∀ c ∈ s, isNumeral c = true

namespace IsPositional

theorem of_digits {s : List Char} (hs : s ≠ []) (h : ∀ c ∈ s, isAsciiDigit c = true) :
    IsPositional s where
  isMagnitude := Formula.isMagnitude_of_digits hs fun c hc => isDigit_of_isAsciiDigit (h c hc)
  isNumeral c hc := by simp [Reckon.isNumeral, h c hc]

theorem of_point {s t : List Char} (hs : s ≠ []) (h : ∀ c ∈ s, isAsciiDigit c = true)
    (ht : ∀ c ∈ t, isAsciiDigit c = true) : IsPositional (s ++ '.' :: t) where
  isMagnitude := Formula.isMagnitude_of_point hs (fun c hc => isDigit_of_isAsciiDigit (h c hc))
    fun c hc => isDigit_of_isAsciiDigit (ht c hc)
  isNumeral c hc := by
    rcases List.mem_append.mp hc with hc | hc
    · simp [Reckon.isNumeral, h c hc]
    rcases List.mem_cons.mp hc with rfl | hc
    · decide
    · simp [Reckon.isNumeral, ht c hc]

theorem withPoint {s : List Char} (hs : s ≠ []) (h : ∀ c ∈ s, isAsciiDigit c = true) (k : Nat) :
    IsPositional (withPoint s k) := by
  unfold Decimal.withPoint
  split
  · exact of_digits hs h
  split
  · rename_i hk hlt
    refine of_point ?_ (fun c hc => h c (List.mem_of_mem_take hc))
      fun c hc => h c (List.mem_of_mem_drop hc)
    rw [← List.length_pos_iff, List.length_take]
    omega
  · refine of_point (s := ['0']) (by simp) (by decide) fun c hc => ?_
    rcases List.mem_append.mp hc with hc | hc
    · rw [List.eq_of_mem_replicate hc]
      decide
    · exact h c hc

end IsPositional

/-! ### Displayed numbers -/

theorem round_eq_finite {ctx : Context} {negative : Bool} {c : Nat} {e : Int} {a : Decimal}
    (h : ctx.round negative c e = .ok a) : ∃ c' e', a = finite negative c' e' := by
  unfold Context.round at h
  split at h
  · cases h
    exact ⟨_, _, rfl⟩
  · simp only at h
    split at h
    · cases h
    split at h
    · cases h
      exact ⟨_, _, rfl⟩
    split at h
    · cases h
      exact ⟨_, _, rfl⟩
    · cases h

theorem normalize_eq_finite {ctx : Context} {negative : Bool} {c : Nat} {e : Int} {a : Decimal}
    (h : normalize ctx (finite negative c e) = .ok a) : ∃ c' e', a = finite negative c' e' := by
  obtain ⟨b, hb, h⟩ := bind_eq_ok_iff.mp h
  obtain ⟨c', e', rfl⟩ := round_eq_finite hb
  simp only at h
  split at h
  · cases h
    exact ⟨_, _, rfl⟩
  · cases h
    exact ⟨_, _, rfl⟩

theorem exists_positional (negative : Bool) (c : Nat) (e : Int) :
    ∃ s, IsPositional s ∧ (finite negative c e).positional = signText negative ++ s := by
  rw [positional]
  split
  · refine ⟨_, .of_digits ?_ fun d hd => ?_, rfl⟩
    · exact List.append_ne_nil_of_left_ne_nil (digits_ne_nil c) _
    · rcases List.mem_append.mp hd with hd | hd
      · exact isAsciiDigit_of_mem_digits hd
      · rw [List.eq_of_mem_replicate hd]
        decide
  · exact ⟨_, .withPoint (digits_ne_nil c) (fun d => isAsciiDigit_of_mem_digits) _, rfl⟩

/-- A minus is displayed for negative numbers only. -/
theorem exists_displayChars {negative : Bool} {c : Nat} {e : Int} {s : List Char}
    (h : (finite negative c e).displayChars = .ok s) :
    ∃ t, IsPositional t ∧ (s = t ∨ s = '-' :: t ∧ negative = true ∧ c ≠ 0) := by
  rw [displayChars] at h
  by_cases hint : (finite negative c e).isIntegral = true
  · by_cases hlong : (maxIntegerDigits : Int) < if c = 0 then 1 else digitCount c + e
    · rw [if_pos hint, if_pos hlong] at h
      cases h
    · rw [if_pos hint, if_neg hlong] at h
      cases h
      refine ⟨digits (magnitude c e), .of_digits (digits_ne_nil _) fun d =>
        isAsciiDigit_of_mem_digits, ?_⟩
      cases hsign : negative && magnitude c e != 0 with
      | false => exact .inl rfl
      | true =>
        rw [Bool.and_eq_true] at hsign
        refine .inr ⟨rfl, hsign.1, ?_⟩
        rintro rfl
        have : magnitude 0 e = 0 := by simp [magnitude]
        rw [this] at hsign
        cases hsign.2
  · rw [if_neg hint] at h
    obtain ⟨b, hb, h⟩ := bind_eq_ok_iff.mp h
    have hb : (normalize .plain (finite negative c e)).mapError Failure.signal = .ok b := hb
    cases h
    obtain ⟨c', e', rfl⟩ := normalize_eq_finite (mapError_eq_ok_iff.mp hb)
    obtain ⟨t, ht, heq⟩ := exists_positional negative c' e'
    refine ⟨t, ht, ?_⟩
    rw [heq]
    cases negative with
    | false => exact .inl rfl
    | true =>
      refine .inr ⟨rfl, rfl, ?_⟩
      rintro rfl
      exact hint (by simp [isIntegral])

theorem less_zero_finite (negative : Bool) (c : Nat) (e : Int) :
    (finite negative c e).less .zero = .ok (negative && c != 0) := by
  have hcompare : compare? (finite negative c e) .zero =
      some (if c = 0 then .eq else if negative then .lt else .gt) := by
    by_cases hc : c = 0
    · simp [compare?, zero, ofNat, hc]
    · cases negative <;> simp [compare?, zero, ofNat, compareMagnitude, hc]
  rw [less, order, hcompare]
  by_cases hc : c = 0
  · rw [if_pos hc, hc]
    simp
  · rw [if_neg hc]
    cases negative <;> simp [hc]

/-- A number without a sign is not negative. -/
theorem nonneg_of_ofText? {s : List Char} (hs : isMagnitude s = true) {a : Decimal} {q : ℚ}
    (h : ofText? s = some a) (hq : a.toRat? = some q) : 0 ≤ q := by
  have htrim := Formula.filter_trim_of_isMagnitude hs [] (by decide)
  rw [List.nil_append] at htrim
  rw [ofText?, htrim, Formula.splitSign_of_isMagnitude hs] at h
  simp only at h
  split at h
  · cases h
    cases hq
  split at h
  · cases h
    cases hq
  · obtain ⟨⟨c, e⟩, -, h⟩ := Option.bind_eq_some_iff.mp h
    split at h
    · cases h
      cases hq
      rw [signed_false]
      exact mul_nonneg (by exact_mod_cast Nat.zero_le c) (zpow_nonneg (by norm_num) e)
    · cases h

theorem eq_false_of_nonneg {negative : Bool} {c : Nat} {e : Int} {q : ℚ}
    (h : (finite negative c e).toRat? = some q) (hq : 0 ≤ q) : (negative && c != 0) = false := by
  cases negative with
  | false => rfl
  | true =>
    by_contra hc
    have hpos : (0 : ℚ) < c * 10 ^ e := by
      have : 0 < c := by
        rw [Nat.pos_iff_ne_zero]
        simpa using hc
      exact mul_pos (by exact_mod_cast this) (zpow_pos (by norm_num) e)
    cases h
    rw [signed_true] at hq
    push_cast at hq
    linarith

/-- No digit is lost when the number is displayed. -/
def IsShown (a : Decimal) : Prop :=
  ∃ s b q, a.displayChars = .ok s ∧ ofText? s = some b ∧ b.toRat? = some q ∧ a.toRat? = some q

theorem exists_literal {a : Decimal} (h : a.IsShown) :
    ∃ l : Literal, (∀ c ∈ l.chars, isNumeral c = true) ∧
      (a.displayChars = .ok l.chars ∧ l.value.toRat? = a.toRat? ∧ a.less .zero = .ok false ∨
        a.displayChars = .ok ('-' :: l.chars) ∧ l.value.flip.toRat? = a.toRat? ∧
          a.less .zero = .ok true) := by
  obtain ⟨s, b, q, hs, hb, hbq, haq⟩ := h
  cases a with
  | infinite | nan => cases haq
  | finite negative c e =>
    obtain ⟨t, ht, rfl | ⟨rfl, hneg, hc⟩⟩ := exists_displayChars hs
    · refine ⟨⟨s, b, ht.isMagnitude, hb⟩, ht.isNumeral, .inl ⟨hs, hbq.trans haq.symm, ?_⟩⟩
      rw [less_zero_finite, eq_false_of_nonneg haq (nonneg_of_ofText? ht.isMagnitude hb hbq)]
    · rw [Formula.ofText?_cons_minus ht.isMagnitude, Option.map_eq_some_iff] at hb
      obtain ⟨d, hd, rfl⟩ := hb
      refine ⟨⟨t, d, ht.isMagnitude, hd⟩, ht.isNumeral, .inr ⟨hs, hbq.trans haq.symm, ?_⟩⟩
      rw [less_zero_finite]
      simp [hneg, hc]

end Decimal

end Reckon
