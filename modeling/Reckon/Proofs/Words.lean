import Reckon.Proofs.Characters
import Reckon.Text.Blank

/-!
# Words of a text

A text is cut into words at its blanks: everything about `words` follows from what stands on the two
sides of a blank (`words_append_blank`).
-/

namespace Reckon.Text
variable {s t w : List Char} {c : Char}

/-- Not empty and without blanks. -/
structure IsWord (w : List Char) : Prop where
  ne_nil : w ≠ []
  isBlank : ∀ c ∈ w, isBlank c = false

theorem isBlank_of_isWordChar (h : isWordChar c = true) : isBlank c = false := by
  rw [isWordChar, Bool.or_eq_true, isAsciiLetter_iff, isAsciiDigit_iff] at h
  simp only [isBlank, Bool.or_eq_false_iff, Bool.and_eq_false_iff, decide_eq_false_iff_not]
  omega

theorem IsWord.singleton (hc : Text.isBlank c = false) : IsWord [c] where
  ne_nil := List.cons_ne_nil _ _
  isBlank d hd := by rw [List.mem_singleton.mp hd, hc]

/-! ### Words by words -/

theorem wordsFrom_append_blank (hc : isBlank c = true) (word s t : List Char) :
    wordsFrom word (s ++ c :: t) = wordsFrom word s ++ words t := by
  fun_induction wordsFrom word s with
  | case1 word hword => simp [wordsFrom, words, hc, hword]
  | case2 word hword => simp [wordsFrom, words, hc, hword]
  | case3 word d s hd hword ih => simp [wordsFrom, hd, hword, ih]
  | case4 word d s hd hword ih => simp [wordsFrom, hd, hword, ih]
  | case5 word d s hd ih => simp [wordsFrom, hd, ih]

theorem words_append_blank (hc : isBlank c = true) (s t : List Char) :
    words (s ++ c :: t) = words s ++ words t :=
  wordsFrom_append_blank hc [] s t

/-- The word being read is continued up to the end of the text. -/
theorem wordsFrom_of_isWord {word : List Char} (hw : ∀ c ∈ w, isBlank c = false)
    (hne : word.reverse ++ w ≠ []) : wordsFrom word w = [word.reverse ++ w] := by
  induction w generalizing word with
  | nil =>
    rw [List.append_nil, ne_eq, List.reverse_eq_nil_iff] at hne
    simp [wordsFrom, hne]
  | cons c w ih =>
    obtain ⟨hc, hw⟩ := List.forall_mem_cons.mp hw
    rw [wordsFrom, hc, if_neg Bool.false_ne_true, ih hw (by simp)]
    simp

theorem words_of_isWord (hw : IsWord w) : words w = [w] :=
  wordsFrom_of_isWord hw.isBlank hw.ne_nil

theorem words_cons_blank (hw : IsWord w) (hc : isBlank c = true) (s : List Char) :
    words (w ++ c :: s) = w :: words s := by
  rw [words_append_blank hc, words_of_isWord hw, List.singleton_append]

theorem isWord_of_mem_wordsFrom {word : List Char} (hword : ∀ c ∈ word, isBlank c = false)
    (h : w ∈ wordsFrom word s) : IsWord w := by
  fun_induction wordsFrom word s with
  | case1 => cases h
  | case2 word hne =>
    rw [List.mem_singleton.mp h]
    exact ⟨by simpa using hne, by simpa using hword⟩
  | case3 word d s hd hempty ih => exact ih (by simp) h
  | case4 word d s hd hne ih =>
    rcases List.mem_cons.mp h with rfl | h
    · exact ⟨by simpa using hne, by simpa using hword⟩
    · exact ih (by simp) h
  | case5 word d s hd ih =>
    exact ih (List.forall_mem_cons.mpr ⟨by simpa using hd, hword⟩) h

theorem isWord_of_mem_words (h : w ∈ words s) : IsWord w :=
  isWord_of_mem_wordsFrom (by simp) h

end Reckon.Text
