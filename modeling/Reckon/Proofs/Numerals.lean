import Mathlib.Data.List.TakeWhile
import Reckon.Proofs.LongestMatch

/-!
# Texts of numbers and names

Which characters numbers and names consist of, and how a sign changes the number that is read
(`ofText?_cons_minus`). No text is both (`isName_of_isNumber`), and no symbol is a name.
-/

namespace Reckon.Formula

open Reckon.Text

theorem mem_withoutLineEnd {s : List Char} {c : Char} (h : c ∈ s) :
    c ∈ withoutLineEnd s ∨ c = '\n' := by
  unfold withoutLineEnd
  split
  · rename_i hlast
    rw [← List.dropLast_append_getLast? _ hlast] at h
    simpa using h
  · exact .inl h

theorem eq_withoutLineEnd_or (s : List Char) :
    s = withoutLineEnd s ∨ s = withoutLineEnd s ++ ['\n'] := by
  rw [withoutLineEnd]
  split
  · rename_i hlast
    exact .inr (List.dropLast_append_getLast? '\n' hlast).symm
  · exact .inl rfl

theorem withoutLineEnd_cons {s : List Char} (hs : s ≠ []) (c : Char) :
    withoutLineEnd (c :: s) = c :: withoutLineEnd s := by
  rw [withoutLineEnd, withoutLineEnd, List.getLast?_cons_of_ne_nil hs,
    List.dropLast_cons_of_ne_nil hs]
  split
  · rfl
  · rfl

theorem mem_splitSign {s : List Char} {c : Char} (h : c ∈ s) :
    c ∈ (Decimal.splitSign s).2 ∨ c = '-' ∨ c = '+' := by
  unfold Decimal.splitSign
  split
  · rcases List.mem_cons.mp h with rfl | h
    · exact .inr (.inl rfl)
    · exact .inl h
  · rcases List.mem_cons.mp h with rfl | h
    · exact .inr (.inr rfl)
    · exact .inl h
  · exact .inl h

/-- The parts of a number without a sign. -/
theorem exists_of_isMagnitude {s : List Char} (h : isMagnitude s = true) :
    ∃ whole fraction : List Char, (∀ c ∈ whole, isDigit c = true) ∧
      (∀ c ∈ fraction, isDigit c = true) ∧
      (s = whole ∧ whole ≠ [] ∨ s = whole ++ '.' :: fraction ∧ (whole ≠ [] ∨ fraction ≠ [])) := by
  have hwhole : ∀ c ∈ s.takeWhile isDigit, isDigit c = true := fun c hc =>
    List.mem_takeWhile_imp hc
  have hs := List.takeWhile_append_dropWhile (p := isDigit) (l := s)
  unfold isMagnitude at h
  simp only at h
  split at h
  · rename_i hrest
    refine ⟨_, [], hwhole, by simp, .inl ⟨?_, by simpa using h⟩⟩
    rw [hrest, List.append_nil] at hs
    exact hs.symm
  · rename_i fraction hrest
    rw [hrest] at hs
    rw [Bool.and_eq_true] at h
    exact ⟨_, fraction, hwhole, List.all_eq_true.mp h.2, .inr ⟨hs.symm, by simpa using h.1⟩⟩
  · cases h

theorem mem_isMagnitude {s : List Char} (h : isMagnitude s = true) {c : Char} (hc : c ∈ s) :
    isDigit c = true ∨ c = '.' := by
  obtain ⟨whole, fraction, hw, hf, ⟨rfl, -⟩ | ⟨rfl, -⟩⟩ := exists_of_isMagnitude h
  · exact .inl (hw c hc)
  · rcases List.mem_append.mp hc with hc | hc
    · exact .inl (hw c hc)
    rcases List.mem_cons.mp hc with rfl | hc
    · exact .inr rfl
    · exact .inl (hf c hc)

theorem isNumber_of_number? {s : List Char} {a : Decimal} (h : number? s = some a) :
    isNumber s = true := by
  unfold number? at h
  split at h
  · assumption
  · cases h

theorem mem_isNumber {s : List Char} (h : isNumber s = true) {c : Char} (hc : c ∈ s) :
    isDigit c = true ∨ c ∈ ['.', '+', '-', '\n'] := by
  rcases mem_withoutLineEnd hc with hc | rfl
  · rcases mem_splitSign hc with hc | rfl | rfl
    · rcases mem_isMagnitude h hc with hd | rfl
      · exact .inl hd
      · exact .inr (by decide)
    · exact .inr (by decide)
    · exact .inr (by decide)
  · exact .inr (by decide)

theorem mem_isIdentifier {s : List Char} (h : isIdentifier s = true) {c : Char} (hc : c ∈ s) :
    isWordChar c = true := by
  cases s with
  | nil => cases hc
  | cons d s =>
    rw [isIdentifier, Bool.and_eq_true] at h
    rcases List.mem_cons.mp hc with rfl | hc
    · exact isWordChar_of_isAsciiLetter h.1
    · exact List.all_eq_true.mp h.2 c hc

theorem isIdentifier_of_isName {s : List Char} (h : isName s = true) :
    isIdentifier (withoutLineEnd s) = true := by
  rw [isName, Bool.and_eq_true] at h
  exact h.1

theorem mem_isName {s : List Char} (h : isName s = true) {c : Char} (hc : c ∈ s) :
    isWordChar c = true ∨ c = '\n' := by
  rcases mem_withoutLineEnd hc with hc | rfl
  · exact .inl (mem_isIdentifier (isIdentifier_of_isName h) hc)
  · exact .inr rfl

theorem hasOperator_of_contains {op : Operator} {s : List Char} (h : op.symbol <:+: s) :
    hasOperator s = true := by
  induction s with
  | nil => exact absurd (List.infix_nil.mp h) op.symbol_ne_nil
  | cons c s ih =>
    rw [hasOperator, Bool.or_eq_true]
    rcases List.infix_cons_iff.mp h with hp | hi
    · refine .inl ?_
      by_contra hnone
      rw [Option.not_isSome_iff_eq_none] at hnone
      exact Operator.longestMatch_eq_none_iff.mp hnone op hp
    · exact .inr (ih hi)

/-- No name has an operator in it. -/
theorem isName_of_contains {op : Operator} {s : List Char} (h : op.symbol <:+: s) :
    isName s = false := by
  rw [isName, hasOperator_of_contains h, Bool.not_true, Bool.and_false]

/-- No symbol is a name. -/
theorem isName_symbol (op : Operator) : isName op.symbol = false := by
  simp [isName, hasOperator_of_contains (List.infix_refl op.symbol)]

theorem isName_nil : isName [] = false := rfl

/-- No text is a name and a number. -/
theorem isName_of_isNumber {s : List Char} (h : isNumber s = true) : isName s = false := by
  by_contra hname
  have hid := isIdentifier_of_isName (by simpa using hname)
  cases hs : withoutLineEnd s with
  | nil => rw [hs] at hid; cases hid
  | cons c t =>
    rw [hs, isIdentifier, Bool.and_eq_true] at hid
    have hc : c ∈ s := by
      have hmem : c ∈ withoutLineEnd s := by simp [hs]
      unfold withoutLineEnd at hmem
      split at hmem
      · exact List.dropLast_subset s hmem
      · exact hmem
    rcases mem_isNumber h hc with hd | hd
    · rw [isDigit_of_isAsciiLetter hid.1] at hd; cases hd
    · revert hd
      have := hid.1
      rintro hd
      simp only [List.mem_cons, List.not_mem_nil, or_false] at hd
      rcases hd with rfl | rfl | rfl | rfl <;> revert this <;> decide

/-! ### Blanks and signs -/

theorem isBlank_of_isDigit {c : Char} (h : isDigit c = true) : isBlank c = false := by
  by_contra hb
  rw [Bool.not_eq_false, isBlank] at hb
  have hc : Char.ofNat c.toNat = c := Char.ofNat_toNat c
  simp only [Bool.or_eq_true, Bool.and_eq_true, decide_eq_true_eq] at hb
  have key : ∀ n ∈ [32, 9, 10, 11, 12, 13, 28, 29, 30, 31, 133, 160, 5760, 8192, 8193, 8194, 8195,
      8196, 8197, 8198, 8199, 8200, 8201, 8202, 8232, 8233, 8239, 8287, 12288],
      isDigit (Char.ofNat n) = false := by
    decide +kernel
  have hmem : c.toNat ∈ [32, 9, 10, 11, 12, 13, 28, 29, 30, 31, 133, 160, 5760, 8192, 8193, 8194,
      8195, 8196, 8197, 8198, 8199, 8200, 8201, 8202, 8232, 8233, 8239, 8287, 12288] := by
    simp only [List.mem_cons, List.not_mem_nil, or_false]
    omega
  have := key _ hmem
  rw [hc, h] at this
  cases this

theorem isBlank_of_mem_isMagnitude {s : List Char} (h : isMagnitude s = true) {c : Char}
    (hc : c ∈ s) : isBlank c = false := by
  rcases mem_isMagnitude h hc with hd | rfl
  · exact isBlank_of_isDigit hd
  · decide

theorem trim_eq_self {s : List Char} (h : ∀ c ∈ s, isBlank c = false) : trim s = s := by
  have hdrop : ∀ t : List Char, (∀ c ∈ t, isBlank c = false) → t.dropWhile isBlank = t := by
    intro t ht
    cases t with
    | nil => rfl
    | cons c t => rw [List.dropWhile_cons_of_neg (by simp [ht c (by simp)])]
  rw [trim, hdrop s h, hdrop _ (by simpa using h), List.reverse_reverse]

/-- Of the marks only the point stands in a number without a sign. -/
theorem not_mem_isMagnitude {s : List Char} (h : isMagnitude s = true) {c : Char}
    (hd : isDigit c = false) (hc : c ≠ '.') : c ∉ s := by
  intro hmem
  rcases mem_isMagnitude h hmem with h' | h'
  · rw [hd] at h'; cases h'
  · exact hc h'

theorem splitSign_of_isMagnitude {s : List Char} (h : isMagnitude s = true) :
    Decimal.splitSign s = (false, s) := by
  unfold Decimal.splitSign
  split
  · exact absurd (List.mem_cons_self ..) (not_mem_isMagnitude h (by decide) (by decide))
  · exact absurd (List.mem_cons_self ..) (not_mem_isMagnitude h (by decide) (by decide))
  · rfl

theorem isMagnitude_ne_nil {s : List Char} (h : isMagnitude s = true) : s ≠ [] := by
  rintro rfl
  cases h

theorem withoutLineEnd_of_not_mem {s : List Char} (h : '\n' ∉ s) : withoutLineEnd s = s := by
  rw [withoutLineEnd, if_neg]
  intro hlast
  exact h (List.mem_of_getLast? hlast)

theorem withoutLineEnd_of_isMagnitude {s : List Char} (h : isMagnitude s = true) :
    withoutLineEnd s = s :=
  withoutLineEnd_of_not_mem (not_mem_isMagnitude h (by decide) (by decide))

theorem isNumber_of_isMagnitude {s : List Char} (h : isMagnitude s = true) : isNumber s = true := by
  rw [isNumber, withoutLineEnd_of_isMagnitude h, splitSign_of_isMagnitude h]
  exact h

/-- A sign in front of a number. -/
theorem isNumber_cons {s : List Char} (h : isMagnitude s = true) {c : Char}
    (hc : c = '+' ∨ c = '-') : isNumber (c :: s) = true := by
  have hend : '\n' ∉ c :: s := by
    intro hmem
    rcases List.mem_cons.mp hmem with rfl | hmem
    · revert hc; decide
    · exact not_mem_isMagnitude h (by decide) (by decide) hmem
  rw [isNumber, withoutLineEnd_of_not_mem hend]
  rcases hc with rfl | rfl
  · exact h
  · exact h

/-- What `ofText?` reads of a number without blanks. -/
theorem filter_trim_of_isMagnitude {s : List Char} (h : isMagnitude s = true) (sign : List Char)
    (hsign : ∀ c ∈ sign, isBlank c = false ∧ c ≠ '_') :
    (trim (sign ++ s)).filter (· ≠ '_') = sign ++ s := by
  rw [trim_eq_self, List.filter_eq_self]
  · intro c hc
    have hne : c ≠ '_' := by
      rcases List.mem_append.mp hc with hc | hc
      · exact (hsign c hc).2
      · rintro rfl
        exact not_mem_isMagnitude h (by decide) (by decide) hc
    simpa using hne
  · intro c hc
    rcases List.mem_append.mp hc with hc | hc
    · exact (hsign c hc).1
    · exact isBlank_of_mem_isMagnitude h hc

/-! ### Literals -/

theorem mem_readPower? {s : List Char} (h : (Decimal.readPower? s).isSome = true) {c : Char}
    (hc : c ∈ s) : isDigit c = true ∨ c ∈ ['e', 'E', '+', '-'] := by
  cases s with
  | nil => cases hc
  | cons d s =>
    simp only [Decimal.readPower?] at h
    split at h
    · rename_i hd
      split at h
      · rename_i hdigits
        rcases List.mem_cons.mp hc with rfl | hc
        · rcases hd with rfl | rfl <;> exact .inr (by decide)
        rcases mem_splitSign hc with hc | rfl | rfl
        · exact .inl (List.all_eq_true.mp hdigits.2 c hc)
        · exact .inr (by decide)
        · exact .inr (by decide)
      · cases h
    · cases h

theorem mem_readMagnitude? {s : List Char} (h : (Decimal.readMagnitude? s).isSome = true) {c : Char}
    (hc : c ∈ s) : isDigit c = true ∨ c ∈ ['.', 'e', 'E', '+', '-'] := by
  have hpower : ∀ t, (Decimal.readPower? t).isSome = true → c ∈ t →
      isDigit c = true ∨ c ∈ ['.', 'e', 'E', '+', '-'] := fun t ht hct =>
    (mem_readPower? ht hct).imp_right fun hmark => List.mem_cons_of_mem _ hmark
  rw [← List.takeWhile_append_dropWhile (p := isDigit) (l := s)] at hc
  rcases List.mem_append.mp hc with hc | hc
  · exact .inl (List.mem_takeWhile_imp hc)
  simp only [Decimal.readMagnitude?] at h
  split at h
  · rename_i t hrest
    split at h
    · cases h
    rw [Option.isSome_map] at h
    rw [hrest] at hc
    rcases List.mem_cons.mp hc with rfl | hc
    · exact .inr (by decide)
    rw [← List.takeWhile_append_dropWhile (p := isDigit) (l := t)] at hc
    rcases List.mem_append.mp hc with hc | hc
    · exact .inl (List.mem_takeWhile_imp hc)
    · exact hpower _ h hc
  · split at h
    · cases h
    rw [Option.isSome_map] at h
    exact hpower _ h hc

theorem mem_isLiteral {s : List Char} (h : isLiteral s = true) {c : Char} (hc : c ∈ s) :
    isDigit c = true ∨ c ∈ ['.', 'e', 'E', '+', '-', '\n'] := by
  rcases mem_withoutLineEnd hc with hc | rfl
  · rcases mem_splitSign hc with hc | rfl | rfl
    · rcases mem_readMagnitude? h hc with hd | hmark
      · exact .inl hd
      · exact .inr (List.mem_append_left ['\n'] hmark)
    · exact .inr (by decide)
    · exact .inr (by decide)
  · exact .inr (by decide)

/-! ### Texts that spell no word -/

theorem mem_of_mem_trim {s : List Char} {c : Char} (h : c ∈ trim s) : c ∈ s := by
  rw [trim, List.mem_reverse] at h
  have h := (List.dropWhile_suffix _).mem h
  exact (List.dropWhile_suffix _).mem (List.mem_reverse.mp h)

theorem mem_of_mem_splitSign {s : List Char} {c : Char} (h : c ∈ (Decimal.splitSign s).2) :
    c ∈ s := by
  unfold Decimal.splitSign at h
  split at h
  · exact List.mem_cons_of_mem _ h
  · exact List.mem_cons_of_mem _ h
  · exact h

theorem toLower_of_isDigit {c : Char} (h : isDigit c = true) : c.toLower = c := by
  refine dif_neg fun hcapital => ?_
  have hletter : isAsciiLetter c = true := isAsciiLetter_iff.mpr (.inr hcapital)
  rw [isDigit_of_isAsciiLetter hletter] at h
  cases h

/-- The letters that spell what is not finite are none of a number. -/
theorem ofText?_eq {s : List Char}
    (hs : ∀ c ∈ s, isDigit c = true ∨ c ∈ ['.', 'e', 'E', '+', '-', '\n']) :
    Decimal.ofText? s =
      let t := Decimal.splitSign ((trim s).filter (· ≠ '_'))
      (Decimal.readMagnitude? t.2).bind fun m =>
        if Decimal.readable m.1 m.2 then some (.finite t.1 m.1 m.2) else none := by
  have hletter : ∀ c ∈ s, c.toLower ∉ ['i', 'n'] := by
    intro c hc hc'
    rcases hs c hc with hd | hmark
    · rw [toLower_of_isDigit hd] at hc'
      have := (by decide : ∀ d ∈ ['i', 'n'], isDigit d = false) c hc'
      rw [hd] at this
      cases this
    · exact (by decide : ∀ d ∈ ['.', 'e', 'E', '+', '-', '\n'], d.toLower ∉ ['i', 'n']) c hmark hc'
  have hword : ∀ w : String, w.toList.head? ∈ [some 'i', some 'n'] →
      String.ofList ((Decimal.splitSign ((trim s).filter (· ≠ '_'))).2.map Char.toLower) ≠ w := by
    rintro w hw rfl
    rw [String.toList_ofList, List.head?_map] at hw
    cases hhead : (Decimal.splitSign ((trim s).filter (· ≠ '_'))).2.head? with
    | none =>
      rw [hhead] at hw
      exact absurd hw (by decide)
    | some c =>
      rw [hhead] at hw
      have hc := mem_of_mem_splitSign (List.mem_of_head? hhead)
      exact hletter c (mem_of_mem_trim (List.mem_filter.mp hc).1) (by simpa using hw)
  rw [Decimal.ofText?]
  simp only
  rw [if_neg, if_neg]
  · rfl
  · exact hword "nan" (by decide)
  · rintro (hinf | hinf)
    · exact hword "inf" (by decide) hinf
    · exact hword "infinity" (by decide) hinf

/-! ### Signs in front of numbers -/

theorem ofText?_cons_plus {s : List Char} (h : isMagnitude s = true) :
    Decimal.ofText? ('+' :: s) = Decimal.ofText? s := by
  have hplus := filter_trim_of_isMagnitude h ['+'] (by decide)
  have hs := filter_trim_of_isMagnitude h [] (by decide)
  rw [List.nil_append] at hs
  rw [List.singleton_append] at hplus
  unfold Decimal.ofText?
  rw [hplus, hs, splitSign_of_isMagnitude h]
  rfl

theorem ofText?_cons_minus {s : List Char} (h : isMagnitude s = true) :
    Decimal.ofText? ('-' :: s) = (Decimal.ofText? s).map Decimal.flip := by
  have hminus := filter_trim_of_isMagnitude h ['-'] (by decide)
  have hs := filter_trim_of_isMagnitude h [] (by decide)
  rw [List.nil_append] at hs
  rw [List.singleton_append] at hminus
  unfold Decimal.ofText?
  rw [hminus, hs, splitSign_of_isMagnitude h]
  simp only [Decimal.splitSign]
  split
  · rfl
  · split
    · rfl
    · cases Decimal.readMagnitude? s with
      | none => rfl
      | some ce =>
        obtain ⟨c, e⟩ := ce
        cases hread : Decimal.readable c e with
        | true => simp [hread, Decimal.flip]
        | false => simp [hread]

theorem trim_append_lineEnd (s : List Char) : trim (s ++ ['\n']) = trim s := by
  rw [trim, trim, List.dropWhile_append]
  split
  · rename_i hblank
    rw [List.isEmpty_iff.mp hblank]
    rfl
  · rw [List.reverse_append, List.reverse_singleton, List.singleton_append,
      List.dropWhile_cons_of_pos (by decide)]

/-- The line end behind a number is not read. -/
theorem ofText?_withoutLineEnd (s : List Char) :
    Decimal.ofText? (withoutLineEnd s) = Decimal.ofText? s := by
  rcases eq_withoutLineEnd_or s with heq | heq
  · rw [← heq]
  · conv_rhs => rw [heq, Decimal.ofText?, trim_append_lineEnd]
    rfl

end Reckon.Formula
