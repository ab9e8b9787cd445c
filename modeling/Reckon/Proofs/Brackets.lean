import Mathlib.Tactic.Ring
import Reckon.Formula.Printer
import Reckon.Formula.Reader
import Reckon.Proofs.Numerals

/-!
# Nested brackets

`Nested s`: every bracket of `s` has its partner, and pairs lie beside or inside each other. A text
between two brackets is jumped over by the search for the closing one exactly when it is nested, so
`closing?` finds the partner of the first bracket (`closing?_group`).
-/

namespace Reckon.Formula

def isBracket (c : Char) : Bool :=
  c = '(' || c = ')'

theorem isBracket_of_isWordChar {c : Char} (h : Text.isWordChar c = true) :
    isBracket c = false := by
  rw [isBracket, Bool.or_eq_false_iff, decide_eq_false_iff_not, decide_eq_false_iff_not]
  refine ⟨?_, ?_⟩ <;> rintro rfl <;> revert h <;> decide

theorem isBracket_of_isName {s : List Char} (h : isName s = true) :
    ∀ c ∈ s, isBracket c = false := by
  intro c hc
  rcases mem_isName h hc with hc | rfl
  · exact isBracket_of_isWordChar hc
  · decide

theorem isBracket_of_isNumber {s : List Char} (h : isNumber s = true) :
    ∀ c ∈ s, isBracket c = false := by
  intro c hc
  rw [isBracket, Bool.or_eq_false_iff, decide_eq_false_iff_not, decide_eq_false_iff_not]
  rcases mem_isNumber h hc with hc | hc
  · refine ⟨?_, ?_⟩ <;> rintro rfl <;> revert hc <;> decide
  · refine ⟨?_, ?_⟩ <;> rintro rfl <;> revert hc <;> decide

theorem isBracket_of_mem_symbol (op : Operator) : ∀ c ∈ op.symbol, isBracket c = false := by
  intro c hc
  rw [isBracket, Bool.or_eq_false_iff, decide_eq_false_iff_not, decide_eq_false_iff_not]
  refine ⟨?_, ?_⟩ <;> rintro rfl
  · exact op.not_mem_symbol (by decide) hc
  · exact op.not_mem_symbol (by decide) hc

inductive Nested : List Char → Prop
  | nil : Nested []
  | cons {c : Char} {s : List Char} : isBracket c = false → Nested s → Nested (c :: s)
  | group {s s' : List Char} : Nested s → Nested s' → Nested ('(' :: s ++ ')' :: s')

namespace Nested
variable {s s' : List Char}

theorem of_forall (h : ∀ c ∈ s, isBracket c = false) : Nested s := by
  induction s with
  | nil => exact nil
  | cons c s ih => exact cons (h c (by simp)) (ih fun d hd => h d (by simp [hd]))

theorem append (h : Nested s) (h' : Nested s') : Nested (s ++ s') := by
  induction h with
  | nil => exact h'
  | cons hc _ ih => exact cons hc ih
  | group h₁ _ _ ih =>
    have := group h₁ ih
    simpa using this

theorem inBrackets (h : Nested s) : Nested (Tree.inBrackets s) :=
  group h nil

end Nested

/-! ### The partner of a bracket -/

/-- The search for the end of a bracket that is open runs over a nested text. -/
theorem closingFrom_append {s : List Char} (h : Nested s) {depth : Int} (hd : 0 < depth)
    (place : Nat) (rest : List Char) :
    closingFrom depth place (s ++ rest) = closingFrom depth (place + s.length) rest := by
  induction h generalizing depth place rest with
  | nil => rfl
  | @cons c s hc _ ih =>
    have hc' : c ≠ '(' ∧ c ≠ ')' := by simpa [isBracket] using hc
    have hne : depth ≠ 0 := hd.ne'
    simp only [List.cons_append, closingFrom, hc'.1, hc'.2, hne, ↓reduceIte]
    rw [ih hd]
    congr 1
    simp only [List.length_cons]; omega
  | @group s s' _ _ ih ih' =>
    have h1 : depth + 1 ≠ 0 := by omega
    have h2 : (0 : Int) < depth + 1 := by omega
    have hne : depth ≠ 0 := hd.ne'
    have hchar : (')' : Char) ≠ '(' := by decide
    simp only [List.cons_append, List.append_assoc, closingFrom, h1, ↓reduceIte]
    rw [ih h2]
    simp only [closingFrom, hchar, ↓reduceIte, add_sub_cancel_right, hne]
    rw [ih' hd]
    congr 1
    simp only [List.length_cons, List.length_append]; omega

theorem closing?_group {s : List Char} (h : Nested s) (rest : List Char) :
    closing? ('(' :: s ++ ')' :: rest) = some (s.length + 1) := by
  have hchar : (')' : Char) ≠ '(' := by decide
  simp only [closing?, List.cons_append, closingFrom, zero_add, ↓reduceIte, one_ne_zero]
  rw [closingFrom_append h one_pos]
  simp only [closingFrom, hchar, ↓reduceIte, sub_self]
  congr 1
  omega

/-- What is found behind an open bracket is a closing one. -/
theorem eq_append_of_closingFrom {s : List Char} {depth : Int} (hd : 0 < depth) {place k : Nat}
    (h : closingFrom depth place s = some k) :
    ∃ u v, s = u ++ ')' :: v ∧ k = place + u.length := by
  induction s generalizing depth place with
  | nil => cases h
  | cons c s ih =>
    rw [closingFrom] at h
    by_cases ho : c = '('
    · have hne : depth + 1 ≠ 0 := by omega
      simp only [ho, ↓reduceIte, hne] at h
      obtain ⟨u, v, rfl, rfl⟩ := ih (by omega) h
      exact ⟨'(' :: u, v, by simp [ho], by simp only [List.length_cons]; omega⟩
    · by_cases hc : c = ')'
      · subst hc
        simp only [ho, ↓reduceIte] at h
        split at h
        · cases h
          exact ⟨[], s, rfl, rfl⟩
        · obtain ⟨u, v, rfl, rfl⟩ := ih (by omega) h
          exact ⟨')' :: u, v, rfl, by simp only [List.length_cons]; omega⟩
      · have hne : depth ≠ 0 := hd.ne'
        simp only [ho, hc, ↓reduceIte, hne] at h
        obtain ⟨u, v, rfl, rfl⟩ := ih hd h
        exact ⟨c :: u, v, rfl, by simp only [List.length_cons]; omega⟩

/-- A text that counts as enclosed is a text in brackets or a single bracket. -/
theorem eq_of_enclosed? {s inner : List Char} (h : enclosed? s = some inner) :
    s = Tree.inBrackets inner ∨ inner = [] := by
  unfold enclosed? at h
  split at h
  · rename_i t
    split at h
    · rename_i hk
      cases h
      cases hc : closing? ('(' :: t) with
      | none =>
        have : t = [] := by simpa [hc, eq_comm] using hk
        exact .inr (by simp [this])
      | some k =>
        have hc' : closingFrom 1 1 t = some k := by simpa [closing?, closingFrom] using hc
        obtain ⟨u, v, rfl, rfl⟩ := eq_append_of_closingFrom one_pos hc'
        have : v = [] := by
          have := hk
          simp only [hc, Option.getD_some, List.length_append, List.length_cons] at this
          exact List.eq_nil_of_length_eq_zero (by omega)
        subst this
        exact .inl (by simp [Tree.inBrackets])
    · cases h
  · cases h

theorem enclosed?_inBrackets {s : List Char} (h : Nested s) :
    enclosed? (Tree.inBrackets s) = some s := by
  have hk : closing? ('(' :: (s ++ [')'])) = some (s.length + 1) := by
    simpa using closing?_group h []
  simp [Tree.inBrackets, enclosed?, hk]

/-- A text whose first bracket is closed before its end is not enclosed. -/
theorem enclosed?_group_append {s rest : List Char} (h : Nested s) (hrest : rest ≠ []) :
    enclosed? (Tree.inBrackets s ++ rest) = none := by
  have hk : closing? ('(' :: (s ++ ')' :: rest)) = some (s.length + 1) := by
    simpa using closing?_group h rest
  have hlen : rest.length ≠ 0 := by simpa using hrest
  simp only [Tree.inBrackets, List.cons_append, List.append_assoc, List.nil_append, enclosed?, hk,
    Option.getD_some, List.length_append, List.length_cons]
  rw [if_neg (by omega)]

end Reckon.Formula
