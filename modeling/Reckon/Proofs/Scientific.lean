import Reckon.Proofs.PowersOfTen
import Reckon.Proofs.Prepared
import Reckon.Proofs.Printing
import Reckon.Proofs.Unlimited

/-!
# E notation

A number in E notation is prepared as a product with a power of ten (`Scientific.prepared_text`),
and it is read on its own where a name is bound to it (`Scientific.ofText?_text`). The value of the
product is the number (`Scientific.agree_unlimitedValue`).
-/

namespace Reckon.Formula

open Reckon.Text
open Reckon.Decimal (IsPositional digitsValue readMagnitude? readPower? ofText? signed)

section
variable {s t p : List Char} {c : Char}

theorem splitSign_of_isDigit (hc : isDigit c = true) :
    Decimal.splitSign (c :: s) = (false, c :: s) := by
  unfold Decimal.splitSign
  split
  · rename_i hcons
    rw [(List.cons.inj hcons).1] at hc
    exact absurd hc (by decide)
  · rename_i hcons
    rw [(List.cons.inj hcons).1] at hc
    exact absurd hc (by decide)
  · rfl

theorem takeWhile_isDigit_append (h : ∀ c ∈ s, isAsciiDigit c = true) (hc : isDigit c = false) :
    (s ++ c :: p).takeWhile isDigit = s := by
  rw [List.takeWhile_append_of_pos fun d hd => isDigit_of_isAsciiDigit (h d hd),
    List.takeWhile_cons_of_neg (by simp [hc]), List.append_nil]

theorem dropWhile_isDigit_append (h : ∀ c ∈ s, isAsciiDigit c = true) (hc : isDigit c = false) :
    (s ++ c :: p).dropWhile isDigit = c :: p := by
  rw [List.dropWhile_append_of_pos fun d hd => isDigit_of_isAsciiDigit (h d hd),
    List.dropWhile_cons_of_neg (by simp [hc])]

/-- A power behind digits. -/
theorem readMagnitude?_digits_append (hs : s ≠ []) (h : ∀ c ∈ s, isAsciiDigit c = true)
    (hc : isDigit c = false) (hpoint : c ≠ '.') :
    readMagnitude? (s ++ c :: p) = (readPower? (c :: p)).map fun e => (digitsValue s, e) := by
  rw [readMagnitude?]
  simp [takeWhile_isDigit_append h hc, dropWhile_isDigit_append h hc, hs, hpoint]

/-- A power behind digits with a point among them. -/
theorem readMagnitude?_point_append (hs : s ≠ []) (h : ∀ c ∈ s, isAsciiDigit c = true)
    (ht : ∀ c ∈ t, isAsciiDigit c = true) (hc : isDigit c = false) :
    readMagnitude? (s ++ '.' :: (t ++ c :: p)) =
      (readPower? (c :: p)).map fun e => (digitsValue (s ++ t), e - (t.length : Int)) := by
  have hdot : isDigit '.' = false := by decide
  rw [readMagnitude?]
  simp [takeWhile_isDigit_append h hdot, dropWhile_isDigit_append h hdot,
    takeWhile_isDigit_append ht hc, dropWhile_isDigit_append ht hc, hs]

end

/-- No `e` that makes a power stands in front of the digit `c`. -/
theorem expandScientificFrom_append_digit {afterDigit : Bool} {s t : List Char} {c : Char}
    (hs : ∀ d ∈ s, d ≠ 'e') (hc : isDigit c = true) :
    expandScientificFrom afterDigit (s ++ c :: t) = s ++ c :: expandScientificFrom true t := by
  have hne : c ≠ 'e' := by
    rintro rfl
    revert hc
    decide
  induction s generalizing afterDigit with
  | nil => simp [expandScientificFrom, hne, hc]
  | cons d s ih =>
    have hd := hs d (List.mem_cons_self ..)
    simp [expandScientificFrom, hd, ih fun d' hd' => hs d' (List.mem_cons_of_mem d hd')]

/-! ### Phrases behind a sign -/

theorem sign_cases {sign : Option Binary} (h : ∀ op ∈ sign, op.isSign = true) :
    sign = none ∨ sign = some .plus ∨ sign = some .minus := by
  cases sign with
  | none => exact .inl rfl
  | some op =>
    have hop := h op rfl
    cases op with
    | plus => exact .inr (.inl rfl)
    | minus => exact .inr (.inr rfl)
    | _ => cases hop

namespace Phrase
variable {sign : Option Binary} {p : Phrase}

/-- The phrase with the sign in front, if there is one. -/
def withSign (sign : Option Binary) (p : Phrase) : Phrase :=
  sign.elim p (signed · p)

theorem text_withSign : (withSign sign p).text = sign.elim [] Binary.symbol ++ p.text := by
  cases sign <;> rfl

theorem tree_withSign_literal (l : Literal) :
    (withSign sign (literal l)).tree = .number (sign.elim l.value (signedValue · l.value)) := by
  cases sign <;> rfl

theorem rank_withSign : (withSign sign p).rank = p.rank := by
  cases sign <;> rfl

theorem levels_withSign_le : (withSign sign p).levels ≤ p.levels + 1 := by
  cases sign with
  | none => exact Nat.le_succ _
  | some op => exact Nat.le_refl _

theorem isPlain_withSign (h : p.IsPlain) : (withSign sign p).IsPlain := by
  cases sign with
  | none | some => exact h

/-- Signs bind less tightly than products. -/
theorem wellFormed_withSign (hsign : ∀ op ∈ sign, op.isSign = true) (h : p.WellFormed)
    (hrank : p.rank ≤ Binary.times.rank) : (withSign sign p).WellFormed := by
  rcases sign_cases hsign with rfl | rfl | rfl
  · exact h
  · exact .signed rfl h (hrank.trans_lt (by decide))
  · exact .signed rfl h (hrank.trans_lt (by decide))

end Phrase

/-! ### Numbers in E notation -/

/-- Digits with an optional fraction, then an `e`, an optional sign and the digits of the power. -/
structure Scientific where
  whole : List Char
  fraction : Option (List Char)
  capital : Bool
  sign : Option Binary
  exponent : List Char
  whole_ne_nil : whole ≠ []
  isAsciiDigit_whole : ∀ c ∈ whole, isAsciiDigit c = true
  fraction_ne_nil : fraction ≠ some []
  isAsciiDigit_fraction : ∀ c ∈ fraction.getD [], isAsciiDigit c = true
  isSign : ∀ op ∈ sign, op.isSign = true
  exponent_ne_nil : exponent ≠ []
  isAsciiDigit_exponent : ∀ c ∈ exponent, isAsciiDigit c = true
  /-- All digits of the mantissa are kept. -/
  length_le : (whole ++ fraction.getD []).length ≤ Context.working.digits
  /-- The power is one that products of decimals make. -/
  exponent_le : digitsValue exponent ≤ Numeric.maxExactExponent

namespace Scientific
variable (l : Scientific)

/-- What stands in front of the `e`. -/
def mantissa : List Char :=
  match l.fraction with
  | none => l.whole
  | some digits => l.whole ++ '.' :: digits

/-- The power with its sign. -/
def power : List Char :=
  l.sign.elim [] Binary.symbol ++ l.exponent

def text : List Char :=
  l.mantissa ++ (if l.capital then 'E' else 'e') :: l.power

/-! ### The number -/

def coefficient : Nat :=
  digitsValue (l.whole ++ l.fraction.getD [])

def places : Nat :=
  (l.fraction.getD []).length

def isNegative : Bool :=
  l.sign = some .minus

/-- The digits as a number. -/
def mantissaValue : Decimal :=
  .finite false l.coefficient (-(l.places : Int))

/-- The power of ten as a number. -/
def powerValue : Decimal :=
  .finite l.isNegative (digitsValue l.exponent) 0

def value : Decimal :=
  .finite false l.coefficient (signed l.isNegative (digitsValue l.exponent) - l.places)

theorem isPositional_mantissa : IsPositional l.mantissa := by
  rw [mantissa]
  split
  · exact .of_digits l.whole_ne_nil l.isAsciiDigit_whole
  · rename_i digits h
    refine .of_point l.whole_ne_nil l.isAsciiDigit_whole ?_
    have hdigits := l.isAsciiDigit_fraction
    rwa [h] at hdigits

theorem readMagnitude?_mantissa :
    readMagnitude? l.mantissa = some (l.coefficient, -(l.places : Int)) := by
  rw [mantissa, coefficient, places]
  split
  · rename_i h
    rw [h, Decimal.readMagnitude?_digits l.whole_ne_nil l.isAsciiDigit_whole]
    simp
  · rename_i digits h
    have hdigits := l.isAsciiDigit_fraction
    rw [h] at hdigits ⊢
    exact Decimal.readMagnitude?_point l.whole_ne_nil l.isAsciiDigit_whole hdigits

theorem coefficient_lt : l.coefficient < 10 ^ Context.working.digits := by
  refine (Decimal.digitsValue_lt fun c hc => ?_).trans_le
    (Nat.pow_le_pow_right (by decide) l.length_le)
  rcases List.mem_append.mp hc with hc | hc
  · exact l.isAsciiDigit_whole c hc
  · exact l.isAsciiDigit_fraction c hc

theorem places_le : l.places ≤ Context.working.digits := by
  have h := l.length_le
  rw [List.length_append] at h
  exact (Nat.le_add_left _ _).trans h

theorem ofText?_mantissa : ofText? l.mantissa = some l.mantissaValue := by
  have hplaces := l.places_le
  refine Decimal.ofText?_of_isPositional l.isPositional_mantissa l.readMagnitude?_mantissa ?_
  refine Decimal.readable_of_lt_pow l.coefficient_lt ?_ ?_
  · simp only [Context.working, Decimal.minReadExponent] at hplaces ⊢
    omega
  · simp only [Context.working, Decimal.maxReadExponent] at hplaces ⊢
    omega

theorem ofText?_exponent :
    ofText? l.exponent = some (.finite false (digitsValue l.exponent) 0) := by
  have hle := l.exponent_le
  refine Decimal.ofText?_of_isPositional (.of_digits l.exponent_ne_nil l.isAsciiDigit_exponent)
    (Decimal.readMagnitude?_digits l.exponent_ne_nil l.isAsciiDigit_exponent) ?_
  exact Decimal.readable_of_lt_pow (hle.trans_lt (show _ < 10 ^ 4 by decide)) (by decide)
    (by decide)

/-! ### The product -/

def mantissaLiteral : Literal :=
  ⟨l.mantissa, _, l.isPositional_mantissa.isMagnitude, l.ofText?_mantissa⟩

def ten : Literal :=
  ⟨['1', '0'], .ofNat 10, by decide, by decide +kernel⟩

def exponentLiteral : Literal :=
  ⟨l.exponent, _, (IsPositional.of_digits l.exponent_ne_nil l.isAsciiDigit_exponent).isMagnitude,
    l.ofText?_exponent⟩

def powerPhrase : Phrase :=
  .withSign l.sign (.literal l.exponentLiteral)

/-- The power of ten. -/
def powerOfTen : Phrase :=
  .join .power (.literal ten) l.powerPhrase

/-- The product that the number is written as. -/
def phrase : Phrase :=
  .join .times (.literal l.mantissaLiteral) l.powerOfTen

/-- The tree of the product. -/
def product : Tree :=
  .binary .times (.number l.mantissaValue)
    (.binary .power (.number (.ofNat 10)) (.number l.powerValue))

theorem tree_powerPhrase : l.powerPhrase.tree = .number l.powerValue := by
  rw [powerPhrase, Phrase.tree_withSign_literal, powerValue, isNegative]
  rcases sign_cases l.isSign with h | h | h <;> rw [h] <;> rfl

theorem tree_powerOfTen :
    l.powerOfTen.tree = .binary .power (.number (.ofNat 10)) (.number l.powerValue) := by
  rw [← tree_powerPhrase]
  rfl

theorem tree_phrase : l.phrase.tree = l.product := by
  rw [product, ← tree_powerOfTen]
  rfl

theorem text_powerOfTen : l.powerOfTen.text = '1' :: '0' :: '^' :: l.power := by
  rw [powerOfTen, Phrase.text, powerPhrase, Phrase.text_withSign]
  rfl

theorem text_phrase : l.phrase.text = l.mantissa ++ '*' :: '1' :: '0' :: '^' :: l.power := by
  rw [phrase, Phrase.text, text_powerOfTen]
  rfl

theorem wellFormed_powerPhrase : l.powerPhrase.WellFormed :=
  Phrase.wellFormed_withSign l.isSign (.literal _) (Nat.zero_le _)

theorem rank_powerPhrase : l.powerPhrase.rank = 0 :=
  Phrase.rank_withSign

theorem wellFormed_powerOfTen : l.powerOfTen.WellFormed :=
  .join (.literal ten) l.wellFormed_powerPhrase (Nat.zero_le _)
    (by rw [l.rank_powerPhrase]; decide) fun h => by cases h

theorem rank_powerOfTen : l.powerOfTen.rank < Binary.times.rank := by
  rw [powerOfTen, Phrase.rank]
  decide

theorem wellFormed_phrase : l.phrase.WellFormed :=
  .join (.literal _) l.wellFormed_powerOfTen (Nat.zero_le _) l.rank_powerOfTen fun h => by cases h

theorem isPlain_phrase : l.phrase.IsPlain := by
  have hexponent : (Phrase.literal l.exponentLiteral).IsPlain :=
    (IsPositional.of_digits l.exponent_ne_nil l.isAsciiDigit_exponent).isNumeral
  have hten : ∀ c ∈ ten.chars, isNumeral c = true := by decide
  exact ⟨by decide, l.isPositional_mantissa.isNumeral, by decide, hten,
    Phrase.isPlain_withSign hexponent⟩

/-! ### Preparing -/

theorem power_cases :
    (l.power = l.exponent ∧ l.isNegative = false) ∨
      (l.power = '+' :: l.exponent ∧ l.isNegative = false) ∨
        (l.power = '-' :: l.exponent ∧ l.isNegative = true) := by
  rw [power, isNegative]
  rcases sign_cases l.isSign with h | h | h <;> rw [h]
  · exact .inl ⟨rfl, rfl⟩
  · exact .inr (.inl ⟨rfl, rfl⟩)
  · exact .inr (.inr ⟨rfl, rfl⟩)

theorem mem_power {c : Char} (hc : c ∈ l.power) : isAsciiDigit c = true ∨ c = '+' ∨ c = '-' := by
  rcases l.power_cases with ⟨h, -⟩ | ⟨h, -⟩ | ⟨h, -⟩ <;> rw [h] at hc
  · exact .inl (l.isAsciiDigit_exponent c hc)
  · rcases List.mem_cons.mp hc with rfl | hc
    · exact .inr (.inl rfl)
    · exact .inl (l.isAsciiDigit_exponent c hc)
  · rcases List.mem_cons.mp hc with rfl | hc
    · exact .inr (.inr rfl)
    · exact .inl (l.isAsciiDigit_exponent c hc)

theorem isPlainChar_of_mem_power {c : Char} (hc : c ∈ l.power) : isPlainChar c = true := by
  rcases l.mem_power hc with h | rfl | rfl
  · exact isPlainChar_of_isNumeral (by rw [isNumeral, h, Bool.true_or])
  · decide
  · decide

theorem isPlainChar_of_mem_mantissa {c : Char} (hc : c ∈ l.mantissa) : isPlainChar c = true :=
  isPlainChar_of_isNumeral (l.isPositional_mantissa.isNumeral c hc)

/-- A digit stands in front of the `e`. -/
theorem exists_mantissa : ∃ s c, l.mantissa = s ++ [c] ∧ isAsciiDigit c = true := by
  rw [mantissa]
  split
  · obtain ⟨s, c, hs⟩ := (List.eq_nil_or_concat' l.whole).resolve_left l.whole_ne_nil
    exact ⟨s, c, hs, l.isAsciiDigit_whole c (by simp [hs])⟩
  · rename_i digits h
    have hne : digits ≠ [] := by
      rintro rfl
      exact l.fraction_ne_nil h
    obtain ⟨s, c, hs⟩ := (List.eq_nil_or_concat' digits).resolve_left hne
    exact ⟨l.whole ++ '.' :: s, c, by simp [hs], l.isAsciiDigit_fraction c (by simp [h, hs])⟩

theorem normalize_text : normalize l.text = l.mantissa ++ 'e' :: l.power := by
  have hplain : ∀ c ∈ l.text, isPlainChar c = true ∨ c = 'E' := by
    intro c hc
    rcases List.mem_append.mp hc with hc | hc
    · exact .inl (l.isPlainChar_of_mem_mantissa hc)
    rcases List.mem_cons.mp hc with rfl | hc
    · split
      · exact .inr rfl
      · exact .inl (by decide)
    · exact .inl (l.isPlainChar_of_mem_power hc)
  have hblank : ∀ c ∈ l.text, isBlank c = false := by
    intro c hc
    rcases hplain c hc with h | rfl
    · exact isBlank_of_isPlainChar h
    · decide
  have hascii : ∀ c ∈ l.text, c.toNat < 128 := by
    intro c hc
    rcases hplain c hc with h | rfl
    · have hrange := isPlainChar_iff.mp h
      omega
    · decide
  have hsmall : ∀ s : List Char, (∀ c ∈ s, isPlainChar c = true) → s.map smallLetter = s := by
    intro s hs
    rw [List.map_congr_left fun c hc => smallLetter_of_isPlainChar (hs c hc), List.map_id']
  have hletter : smallLetter (if l.capital then 'E' else 'e') = 'e' := by
    split <;> decide
  rw [normalize, squeeze_eq_self hblank, lowercase, lowercaseFrom_eq_map hascii, text,
    List.map_append, List.map_cons, hletter, hsmall _ fun _ => l.isPlainChar_of_mem_mantissa,
    hsmall _ fun _ => l.isPlainChar_of_mem_power]

theorem isExponentStart_power : isExponentStart l.power = true := by
  obtain ⟨c, s, hs⟩ := List.exists_cons_of_ne_nil l.exponent_ne_nil
  have hdigit : isDigit c = true :=
    isDigit_of_isAsciiDigit (l.isAsciiDigit_exponent c (by simp [hs]))
  rcases l.power_cases with ⟨h, -⟩ | ⟨h, -⟩ | ⟨h, -⟩ <;> rw [h, hs]
  · unfold isExponentStart
    split
    · rename_i hcons
      rw [(List.cons.inj hcons).1] at hdigit
      exact absurd hdigit (by decide)
    · rename_i hcons
      rw [(List.cons.inj hcons).1] at hdigit
      exact absurd hdigit (by decide)
    · rename_i hcons
      rw [← (List.cons.inj hcons).1]
      exact hdigit
    · contradiction
  · exact hdigit
  · exact hdigit

theorem expandScientific_normalize_text : expandScientific (normalize l.text) = l.phrase.text := by
  obtain ⟨s, c, hs, hc⟩ := l.exists_mantissa
  have hquiet : ∀ d ∈ s, d ≠ 'e' := by
    rintro d hd rfl
    have hnumeral := l.isPositional_mantissa.isNumeral 'e' (by simp [hs, hd])
    revert hnumeral
    decide
  have hpower : ∀ d ∈ l.power, d ≠ 'e' := by
    rintro d hd rfl
    have hmarks := l.mem_power hd
    revert hmarks
    decide
  have hrest : expandScientificFrom (isDigit 'e') l.power = l.power :=
    expandScientificFrom_eq_self (isChain_of_ne hpower)
      fun _ d hd => hpower d (List.mem_of_head? hd)
  rw [l.normalize_text, expandScientific, l.text_phrase, hs, List.append_assoc,
    List.singleton_append, expandScientificFrom_append_digit hquiet (isDigit_of_isAsciiDigit hc),
    expandScientificFrom, hrest, if_pos (by simp [l.isExponentStart_power])]
  simp

/-- A number in E notation is prepared as a product. -/
theorem prepared_text : prepared l.text = l.phrase.text := by
  rw [prepared, l.expandScientific_normalize_text]
  exact Phrase.insertProducts_text l.wellFormed_phrase l.isPlain_phrase

theorem nested_prepared : Nested (prepared l.text) := by
  rw [l.prepared_text]
  exact Phrase.nested_text l.wellFormed_phrase

theorem stopsOrIs_readLevels (levels : Nat) :
    StopsOrIs (readLevels levels (prepared l.text)) (.ok l.product) := by
  rw [l.prepared_text, ← l.tree_phrase]
  exact ((Phrase.readLevels_text l.wellFormed_phrase levels).imp_right And.right).symm

/-! ### Reading on its own -/

theorem splitSign_power : Decimal.splitSign l.power = (l.isNegative, l.exponent) := by
  rcases l.power_cases with ⟨h, hsign⟩ | ⟨h, hsign⟩ | ⟨h, hsign⟩ <;> rw [h, hsign]
  · exact splitSign_of_isMagnitude
      (IsPositional.of_digits l.exponent_ne_nil l.isAsciiDigit_exponent).isMagnitude
  · rfl
  · rfl

theorem readPower?_power :
    readPower? ((if l.capital then 'E' else 'e') :: l.power) =
      some (signed l.isNegative (digitsValue l.exponent)) := by
  have hletter :
      (if l.capital then 'E' else 'e') = 'e' ∨ (if l.capital then 'E' else 'e') = 'E' := by
    split
    · exact .inr rfl
    · exact .inl rfl
  have hdigits : l.exponent.all isDigit = true :=
    List.all_eq_true.mpr fun c hc => isDigit_of_isAsciiDigit (l.isAsciiDigit_exponent c hc)
  rw [readPower?, if_pos hletter, l.splitSign_power]
  simp only
  rw [if_pos ⟨l.exponent_ne_nil, hdigits⟩]
  rfl

theorem readMagnitude?_text :
    readMagnitude? l.text =
      some (l.coefficient, signed l.isNegative (digitsValue l.exponent) - l.places) := by
  have hpower := l.readPower?_power
  have hdigit : isDigit (if l.capital then 'E' else 'e') = false := by
    split <;> decide
  have hpoint : (if l.capital then 'E' else 'e') ≠ '.' := by
    split <;> decide
  rw [text, mantissa, coefficient, places]
  cases h : l.fraction with
  | none =>
    rw [readMagnitude?_digits_append l.whole_ne_nil l.isAsciiDigit_whole hdigit hpoint, hpower]
    simp
  | some digits =>
    have hdigits := l.isAsciiDigit_fraction
    rw [h, Option.getD_some] at hdigits
    rw [List.append_assoc, List.cons_append,
      readMagnitude?_point_append l.whole_ne_nil l.isAsciiDigit_whole hdigits hdigit, hpower]
    rfl

theorem mem_text {c : Char} (hc : c ∈ l.text) :
    isDigit c = true ∨ c ∈ ['.', 'e', 'E', '+', '-'] := by
  refine mem_readMagnitude? ?_ hc
  rw [l.readMagnitude?_text]
  rfl

theorem isBlank_of_mem_text {c : Char} (hc : c ∈ l.text) : isBlank c = false ∧ c ≠ '_' := by
  rcases l.mem_text hc with h | h
  · refine ⟨isBlank_of_isDigit h, ?_⟩
    rintro rfl
    revert h
    decide
  · exact (by decide : ∀ c ∈ ['.', 'e', 'E', '+', '-'], isBlank c = false ∧ c ≠ '_') c h

theorem trim_text : trim l.text = l.text :=
  trim_eq_self fun _ hc => (l.isBlank_of_mem_text hc).1

theorem splitSign_text : Decimal.splitSign l.text = (false, l.text) := by
  obtain ⟨c, s, hs⟩ := List.exists_cons_of_ne_nil l.whole_ne_nil
  have hdigit : isDigit c = true := isDigit_of_isAsciiDigit (l.isAsciiDigit_whole c (by simp [hs]))
  obtain ⟨t, ht⟩ : ∃ t, l.text = c :: t := by
    rw [text, mantissa]
    split <;> rw [hs] <;> exact ⟨_, rfl⟩
  rw [ht, splitSign_of_isDigit hdigit]

theorem readable_value :
    Decimal.readable l.coefficient (signed l.isNegative (digitsValue l.exponent) - l.places) =
      true := by
  have hplaces := l.places_le
  have hexponent := l.exponent_le
  simp only [Context.working, Numeric.maxExactExponent] at hplaces hexponent
  refine Decimal.readable_of_lt_pow l.coefficient_lt ?_ ?_
  · simp only [signed, Decimal.minReadExponent]
    split <;> omega
  · simp only [signed, Decimal.maxReadExponent, Context.working]
    split <;> omega

/-- The number is read as it is written. -/
theorem ofText?_text : ofText? l.text = some l.value := by
  have hmarks : ∀ c ∈ l.text, isDigit c = true ∨ c ∈ ['.', 'e', 'E', '+', '-', '\n'] :=
    fun c hc => (l.mem_text hc).imp_right fun h => List.mem_append_left ['\n'] h
  have hfilter : (trim l.text).filter (· ≠ '_') = l.text := by
    rw [l.trim_text]
    exact List.filter_eq_self.mpr fun c hc => by simp [(l.isBlank_of_mem_text hc).2]
  rw [ofText?_eq hmarks, hfilter, l.splitSign_text]
  simp only [l.readMagnitude?_text, Option.bind_some, l.readable_value, if_true, value]

theorem isLiteral_text : isLiteral l.text = true := by
  have hend : '\n' ∉ l.text := by
    intro hc
    have hmarks := l.mem_text hc
    revert hmarks
    decide
  rw [isLiteral, withoutLineEnd_of_not_mem hend, l.splitSign_text, l.readMagnitude?_text]
  rfl

/-! ### The value of the product -/

theorem agree_unlimitedValue [Binary64.Library] (unit : AngleUnit) (b : Bindings)
    (resolving : List String) :
    AgreeValue (l.product.unlimitedValue unit b resolving) (.ok l.value) := by
  have hplaces : -(-(l.places : Int)) ≤ 50 := by
    have h := l.places_le
    simp only [Context.working] at h
    omega
  have hvalue := @Binary.apply_times_power_ten _ l.isNegative l.coefficient (digitsValue l.exponent)
    (-(l.places : Int)) l.coefficient_lt (by omega) hplaces l.exponent_le
  rw [product, Tree.unlimitedValue, Tree.unlimitedValue_number, Tree.unlimitedValue,
    Tree.unlimitedValue_number, Tree.unlimitedValue_number, value, sub_eq_add_neg]
  exact hvalue

/-- A name that is bound to the text takes one level. -/
theorem valueLevels_var [Binary64.Library] {unit : AngleUnit} {b : Bindings} {x : String}
    (hconstant : namedConstant? x = none) (hx : b.lookup? x = some (.text l.text)) (levels : Nat) :
    (Tree.var x).valueLevels readFormula unit b (levels + 1) [] = .ok l.value := by
  rw [Tree.valueLevels_var]
  simp only [Tree.resolve, hconstant, hx, Bound.content_text, l.trim_text, l.isLiteral_text,
    l.ofText?_text, if_true, List.contains_nil, Bool.false_eq_true, if_false]
  rfl

end Scientific

end Reckon.Formula
