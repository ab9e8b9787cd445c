import Reckon.Text.Digit

/-!
# Letters and digits

Letters and digits of ASCII by their numbers.
-/

namespace Reckon.Text

/-! ### Deciding -/

section
variable (p : Char → Prop) [DecidablePred p]

/-- What holds of all characters of a text is decided by looking at these, and not at all characters
that there are. -/
instance (priority := high) decidableForallMem (s : List Char) : Decidable (∀ c ∈ s, p c) :=
  List.decidableBAll p s

instance (priority := high) decidableForallMemOption (o : Option Char) :
    Decidable (∀ c ∈ o, p c) :=
  Option.decidableForallMem o

end

/-! ### Numbers of characters -/

variable {c : Char}

theorem le_iff_toNat_le {c d : Char} : c ≤ d ↔ c.toNat ≤ d.toNat :=
  Iff.rfl

theorem isAsciiLetter_iff :
    isAsciiLetter c = true ↔ 97 ≤ c.toNat ∧ c.toNat ≤ 122 ∨ 65 ≤ c.toNat ∧ c.toNat ≤ 90 := by
  simp [isAsciiLetter, le_iff_toNat_le]

theorem isAsciiDigit_iff : isAsciiDigit c = true ↔ 48 ≤ c.toNat ∧ c.toNat ≤ 57 := by
  simp [isAsciiDigit, le_iff_toNat_le]

/-- A digit of some script is no letter. -/
theorem isDigit_of_isAsciiLetter (h : isAsciiLetter c = true) : isDigit c = false := by
  rw [isAsciiLetter_iff] at h
  have hsmall : c.toNat < 128 := by omega
  have hdigit : ¬ ('0' ≤ c ∧ c ≤ '9') := by
    rw [le_iff_toNat_le, le_iff_toNat_le]
    rintro ⟨-, h9⟩
    have : c.toNat ≤ 57 := h9
    omega
  simp [isDigit, digitValue?, hsmall, hdigit]

theorem isDigit_of_isAsciiDigit (h : isAsciiDigit c = true) : isDigit c = true := by
  have hrange := isAsciiDigit_iff.mp h
  have hsmall : c.toNat < 128 := by omega
  have hdigit : '0' ≤ c ∧ c ≤ '9' := by
    rw [le_iff_toNat_le, le_iff_toNat_le]
    exact hrange
  simp [isDigit, digitValue?, hsmall, hdigit]

theorem isAsciiDigit_of_isAsciiLetter (h : isAsciiLetter c = true) : isAsciiDigit c = false := by
  rw [isAsciiLetter_iff] at h
  rw [← Bool.not_eq_true, isAsciiDigit_iff]
  omega

/-- The characters of names. -/
def isWordChar (c : Char) : Bool :=
  isAsciiLetter c || isAsciiDigit c

theorem isWordChar_of_isAsciiLetter (h : isAsciiLetter c = true) : isWordChar c = true := by
  simp [isWordChar, h]

theorem isWordChar_of_isAsciiDigit (h : isAsciiDigit c = true) : isWordChar c = true := by
  simp [isWordChar, h]

end Reckon.Text
