import Mathlib.Data.List.Chain
import Reckon.Proofs.Printing
import Reckon.Proofs.Reading

/-!
# Texts that are prepared already

Preparing the text of a plain phrase changes nothing (`prepare_text`): it has no blanks and no
capitals, no `e` behind a digit, and there is no place where a product is meant without being
written.
-/

namespace Reckon.Formula

open Reckon.Text

namespace Phrase

/-- Numbers in ASCII digits, names of small letters and then digits, and no `log`. -/
def IsPlain : Phrase → Prop
  | literal l => ∀ c ∈ l.chars, isNumeral c = true
  | name x => IsNeat x.chars
  | group p | apply _ p | signed _ p => p.IsPlain
  | join op l r => op ≠ .log ∧ l.IsPlain ∧ r.IsPlain

end Phrase

/-! ### Small letters without blanks -/

/-- The visible characters of ASCII but the capitals. -/
def isPlainChar (c : Char) : Bool :=
  32 < c.toNat && c.toNat < 127 && !('A' ≤ c && c ≤ 'Z')

theorem isPlainChar_iff {c : Char} :
    isPlainChar c = true ↔
      32 < c.toNat ∧ c.toNat < 127 ∧ ¬ (65 ≤ c.toNat ∧ c.toNat ≤ 90) := by
  have hcapital : ('A' ≤ c && c ≤ 'Z') = true ↔ 65 ≤ c.toNat ∧ c.toNat ≤ 90 := by
    rw [Bool.and_eq_true, decide_eq_true_eq, decide_eq_true_eq]
    exact Iff.rfl
  rw [isPlainChar, Bool.and_eq_true, Bool.and_eq_true, decide_eq_true_eq, decide_eq_true_eq,
    Bool.not_eq_true', ← Bool.not_eq_true, hcapital, and_assoc]

theorem isPlainChar_of_isNumeral {c : Char} (h : isNumeral c = true) : isPlainChar c = true := by
  rw [isNumeral, Bool.or_eq_true, decide_eq_true_eq] at h
  rcases h with h | rfl
  · rw [isAsciiDigit_iff] at h
    rw [isPlainChar_iff]
    omega
  · decide

theorem isPlainChar_of_isNeat {s : List Char} (h : IsNeat s) : ∀ c ∈ s, isPlainChar c = true := by
  obtain ⟨letters, digits, rfl, -, hl, hd⟩ := h
  intro c hc
  rcases List.mem_append.mp hc with hc | hc
  · have hletter := hl c hc
    rw [le_iff_toNat_le, le_iff_toNat_le] at hletter
    have hfirst : 97 ≤ c.toNat := hletter.1
    have hlast : c.toNat ≤ 122 := hletter.2
    rw [isPlainChar_iff]
    omega
  · refine isPlainChar_of_isNumeral ?_
    rw [isNumeral, hd c hc, Bool.true_or]

theorem isPlainChar_of_mem_symbol (op : Operator) : ∀ c ∈ op.symbol, isPlainChar c = true := by
  refine Operator.forall_of_byLength (p := fun op => ∀ c ∈ op.symbol, isPlainChar c = true) ?_ op
  decide

theorem isBlank_of_isPlainChar {c : Char} (h : isPlainChar c = true) : isBlank c = false := by
  rw [isPlainChar_iff] at h
  simp only [isBlank, Bool.or_eq_false_iff, Bool.and_eq_false_iff, decide_eq_false_iff_not]
  omega

theorem smallLetter_of_isPlainChar {c : Char} (h : isPlainChar c = true) : smallLetter c = c := by
  rw [isPlainChar_iff] at h
  have hcapital : ¬ ('A' ≤ c ∧ c ≤ 'Z') := h.2.2
  rw [smallLetter, if_pos (by omega), if_neg hcapital]

/-- The letters with rules of their own are none of ASCII. -/
theorem lowercaseFrom_eq_map {before s : List Char} (h : ∀ c ∈ s, c.toNat < 128) :
    lowercaseFrom before s = s.map smallLetter := by
  induction s generalizing before with
  | nil => rfl
  | cons c s ih =>
    have hc := h c (List.mem_cons_self ..)
    have hdot : c ≠ 'İ' := by
      rintro rfl
      revert hc
      decide
    have hsigma : c ≠ 'Σ' := by
      rintro rfl
      revert hc
      decide
    rw [lowercaseFrom, if_neg hdot, if_neg hsigma, ih fun d hd => h d (List.mem_cons_of_mem c hd)]
    rfl

theorem lowercaseFrom_eq_self {before s : List Char} (h : ∀ c ∈ s, isPlainChar c = true) :
    lowercaseFrom before s = s := by
  have hascii : ∀ c ∈ s, c.toNat < 128 := by
    intro c hc
    have hrange := isPlainChar_iff.mp (h c hc)
    omega
  have hsmall : s.map smallLetter = s.map id :=
    List.map_congr_left fun c hc => smallLetter_of_isPlainChar (h c hc)
  rw [lowercaseFrom_eq_map hascii, hsmall, List.map_id]

theorem squeeze_eq_self {s : List Char} (h : ∀ c ∈ s, isBlank c = false) : squeeze s = s :=
  List.filter_eq_self.mpr fun c hc => by simp [h c hc]

theorem normalize_eq_self {s : List Char} (h : ∀ c ∈ s, isPlainChar c = true) :
    normalize s = s := by
  rw [normalize, squeeze_eq_self fun c hc => isBlank_of_isPlainChar (h c hc)]
  exact lowercaseFrom_eq_self h

/-! ### Marks between texts

Brackets, semicolons and the signs of products and sums are neither letters nor passed over in the
search for one. -/

section
variable {c : Char} (hc : c ∈ ['(', ')', ';', '*', '+', '-'])
include hc

theorem meetsCased_append_mark (s t : List Char) : meetsCased (s ++ c :: t) = meetsCased s := by
  have hmark : isPassedOver c = false ∧ isCased c = false :=
    (by decide +kernel : ∀ c ∈ ['(', ')', ';', '*', '+', '-'],
      isPassedOver c = false ∧ isCased c = false) c hc
  induction s with
  | nil => simp [meetsCased, hmark]
  | cons d s ih =>
    simp only [meetsCased, List.cons_append, List.dropWhile_cons] at ih ⊢
    cases isPassedOver d with
    | true => exact ih
    | false => rfl

theorem lowercaseFrom_behind_mark (u before s : List Char) :
    lowercaseFrom (u ++ c :: before) s = lowercaseFrom u s := by
  induction s generalizing u with
  | nil => rfl
  | cons d s ih =>
    rw [lowercaseFrom, lowercaseFrom, meetsCased_append_mark hc, ← List.cons_append, ih]

theorem lowercaseFrom_append_mark (before s t : List Char) :
    lowercaseFrom before (s ++ c :: t) = lowercaseFrom before s ++ c :: lowercase t := by
  induction s generalizing before with
  | nil =>
    have hsmall : ∀ t, lowercaseFrom before (c :: t) = c :: lowercaseFrom (c :: before) t := by
      intro t
      simp only [List.mem_cons, List.not_mem_nil, or_false] at hc
      rcases hc with rfl | rfl | rfl | rfl | rfl | rfl <;> rfl
    have hbehind := lowercaseFrom_behind_mark hc [] before t
    rw [List.nil_append] at hbehind
    rw [List.nil_append, hsmall, hbehind, lowercaseFrom, lowercase, List.nil_append]
  | cons d s ih =>
    rw [List.cons_append, lowercaseFrom, lowercaseFrom, meetsCased_append_mark hc, ih]
    simp

theorem normalize_append_mark (s t : List Char) :
    normalize (s ++ c :: t) = normalize s ++ c :: normalize t := by
  have hblank : isBlank c = false :=
    (by decide : ∀ c ∈ ['(', ')', ';', '*', '+', '-'], isBlank c = false) c hc
  simp only [normalize, squeeze, List.filter_append, List.filter_cons, hblank, Bool.not_false,
    ↓reduceIte]
  exact lowercaseFrom_append_mark hc [] _ _

end

/-! ### No `e` behind a digit -/

/-- The characters `c` and `d` may stand side by side: there is no `e` behind a digit. -/
def IsQuiet (c d : Char) : Prop :=
  isDigit c = true → d ≠ 'e'

theorem expandScientificFrom_eq_self {afterDigit : Bool} {s : List Char} (h : s.IsChain IsQuiet)
    (hhead : afterDigit = true → ∀ c ∈ s.head?, c ≠ 'e') :
    expandScientificFrom afterDigit s = s := by
  induction s generalizing afterDigit with
  | nil => rfl
  | cons c s ih =>
    rw [List.isChain_cons] at h
    have hnot : ¬ (c = 'e' && afterDigit && isExponentStart s) = true := by
      rw [Bool.and_eq_true, Bool.and_eq_true, decide_eq_true_eq]
      rintro ⟨⟨hc, hdigit⟩, -⟩
      exact hhead hdigit c rfl hc
    rw [expandScientificFrom, if_neg hnot, ih h.2 fun hdigit d hd => h.1 d hd hdigit]

theorem isChain_of_ne {s : List Char} (h : ∀ c ∈ s, c ≠ 'e') : s.IsChain IsQuiet := by
  induction s with
  | nil => exact .nil
  | cons c s ih =>
    refine List.isChain_cons.mpr ⟨fun d hd _ => ?_, ih fun d hd => h d (List.mem_cons_of_mem c hd)⟩
    exact h d (List.mem_cons_of_mem c (List.mem_of_head? hd))

theorem isChain_of_not_digit {s : List Char} (h : ∀ c ∈ s, isDigit c = false) :
    s.IsChain IsQuiet := by
  induction s with
  | nil => exact .nil
  | cons c s ih =>
    refine List.isChain_cons.mpr ⟨fun d _ hc => ?_, ih fun d hd => h d (List.mem_cons_of_mem c hd)⟩
    rw [h c (List.mem_cons_self ..)] at hc
    cases hc

/-- Texts side by side, the first ending in no digit. -/
theorem isChain_append_of_getLast? {s t : List Char} (hs : s.IsChain IsQuiet)
    (ht : t.IsChain IsQuiet) (h : ∀ c ∈ s.getLast?, isDigit c = false) :
    (s ++ t).IsChain IsQuiet := by
  refine hs.append ht fun c hc d _ hdigit => ?_
  rw [h c hc] at hdigit
  cases hdigit

/-- Texts side by side, the second beginning with no `e`. -/
theorem isChain_append_of_head? {s t : List Char} (hs : s.IsChain IsQuiet)
    (ht : t.IsChain IsQuiet) (h : ∀ d ∈ t.head?, d ≠ 'e') : (s ++ t).IsChain IsQuiet :=
  hs.append ht fun _ _ d hd _ => h d hd

instance (c d : Char) : Decidable (IsQuiet c d) :=
  inferInstanceAs (Decidable (isDigit c = true → d ≠ 'e'))

theorem isChain_symbol (op : Operator) : op.symbol.IsChain IsQuiet := by
  refine Operator.forall_of_byLength (p := fun op => op.symbol.IsChain IsQuiet) ?_ op
  decide

theorem isChain_inBrackets {s : List Char} (hs : s.IsChain IsQuiet) :
    (Tree.inBrackets s).IsChain IsQuiet := by
  have hclose : (s ++ [')']).IsChain IsQuiet :=
    isChain_append_of_head? hs (isChain_of_ne (by decide)) (by decide)
  exact isChain_append_of_getLast? (s := ['(']) (isChain_of_ne (by decide)) hclose (by decide)

namespace Phrase

theorem isChain_of_isNeat {s : List Char} (h : IsNeat s) : s.IsChain IsQuiet := by
  obtain ⟨letters, digits, rfl, -, hl, hd⟩ := h
  have hletter : ∀ c ∈ letters, isDigit c = false := fun c hc =>
    isDigit_of_isAsciiLetter (by simp [isAsciiLetter, hl c hc])
  refine isChain_append_of_getLast? (isChain_of_not_digit hletter) (isChain_of_ne ?_) ?_
  · rintro c hc rfl
    have := hd _ hc
    revert this
    decide
  · exact fun c hc => hletter c (List.mem_of_getLast? hc)

theorem head?_symbol_ne_e {op : Binary} (hop : op ≠ .log) (s : List Char) :
    ∀ d ∈ (op.symbol ++ s).head?, d ≠ 'e' := by
  rintro d hd rfl
  have := head_symbol_append hop s 'e' hd
  revert this
  decide

theorem getLast?_symbol (op : Binary) : ∀ c ∈ op.symbol.getLast?, isDigit c = false := by
  cases op <;> decide

theorem isChain_text {p : Phrase} (h : p.WellFormed) (hplain : p.IsPlain) :
    p.text.IsChain IsQuiet := by
  induction h with
  | literal l =>
    refine isChain_of_ne ?_
    rintro c hc rfl
    have := hplain _ hc
    revert this
    decide
  | name x => exact isChain_of_isNeat hplain
  | group _ ih => exact isChain_inBrackets (ih hplain)
  | @apply op p _ ih =>
    exact isChain_append_of_head? (isChain_symbol (.unary op)) (isChain_inBrackets (ih hplain))
      (by simp [Tree.inBrackets])
  | @signed op p _ _ _ ih =>
    exact isChain_append_of_getLast? (isChain_symbol (.binary op)) (ih hplain)
      (getLast?_symbol op)
  | @join op l r _ _ _ _ _ ihl ihr =>
    have hright : (op.symbol ++ r.text).IsChain IsQuiet :=
      isChain_append_of_getLast? (isChain_symbol (.binary op)) (ihr hplain.2.2)
        (getLast?_symbol op)
    exact isChain_append_of_head? (ihl hplain.2.1) hright (head?_symbol_ne_e hplain.1 _)

/-! ### Plain characters -/

theorem isPlainChar_of_mem_text {p : Phrase} (h : p.WellFormed) (hplain : p.IsPlain) {c : Char}
    (hc : c ∈ p.text) : isPlainChar c = true := by
  have hbrackets : ∀ {s : List Char}, (∀ c ∈ s, isPlainChar c = true) →
      ∀ c ∈ Tree.inBrackets s, isPlainChar c = true := by
    intro s hs c hc
    rw [Tree.inBrackets, List.cons_append, List.mem_cons, List.mem_append,
      List.mem_singleton] at hc
    rcases hc with rfl | hc | rfl
    · decide
    · exact hs c hc
    · decide
  induction h generalizing c with
  | literal l => exact isPlainChar_of_isNumeral (hplain c hc)
  | name x => exact isPlainChar_of_isNeat hplain c hc
  | group _ ih => exact hbrackets (fun c hc => ih hplain hc) c hc
  | @apply op p _ ih =>
    rcases List.mem_append.mp hc with hc | hc
    · exact isPlainChar_of_mem_symbol (.unary op) c hc
    · exact hbrackets (fun c hc => ih hplain hc) c hc
  | @signed op p _ _ _ ih =>
    rcases List.mem_append.mp hc with hc | hc
    · exact isPlainChar_of_mem_symbol (.binary op) c hc
    · exact ih hplain hc
  | @join op l r _ _ _ _ _ ihl ihr =>
    rcases List.mem_append.mp hc with hc | hc
    · exact ihl hplain.2.1 hc
    rcases List.mem_append.mp hc with hc | hc
    · exact isPlainChar_of_mem_symbol (.binary op) c hc
    · exact ihr hplain.2.2 hc

end Phrase

/-! ### Products that are meant -/

section
variable {before s rest : List Char} {c : Char} {op : Operator}

theorem insertProductsFrom_cons (hm : Operator.longestMatch (c :: s) = none)
    (hmeans : meansProduct before c none = false) :
    insertProductsFrom before (c :: s) = c :: insertProductsFrom (c :: before) s := by
  rw [insertProductsFrom]
  split
  · rename_i h
    rw [hm] at h
    cases h
  · rw [hm, hmeans]
    rfl

theorem insertProductsFrom_symbol (hm : Operator.longestMatch (op.symbol ++ s) = some op)
    (hmeans : ∀ c ∈ op.symbol.head?, meansProduct before c (some op) = false) :
    insertProductsFrom before (op.symbol ++ s) =
      op.symbol ++ insertProductsFrom (op.symbol.reverse ++ before) s := by
  obtain ⟨c, t, hsymbol⟩ := List.exists_cons_of_ne_nil op.symbol_ne_nil
  have hc := hmeans c (by rw [hsymbol]; rfl)
  rw [hsymbol, List.cons_append] at hm ⊢
  rw [insertProductsFrom]
  split
  · rename_i op' h
    rw [hm] at h
    cases h
    rw [hm, hc, hsymbol, ← List.cons_append, List.drop_left]
    rfl
  · rename_i h
    rw [hm] at h
    cases h

/-- The search for products runs over characters where no operator begins. -/
theorem insertProductsFrom_plain
    (hm : ∀ v, v <:+ s → v ≠ [] → Operator.longestMatch (v ++ rest) = none)
    (hmeans : ∀ u c v, s = u ++ c :: v → meansProduct (u.reverse ++ before) c none = false) :
    insertProductsFrom before (s ++ rest) =
      s ++ insertProductsFrom (s.reverse ++ before) rest := by
  induction s generalizing before with
  | nil => rfl
  | cons c s ih =>
    have hc := hm (c :: s) List.suffix_rfl (List.cons_ne_nil _ _)
    rw [List.cons_append] at hc ⊢
    have hfirst : meansProduct before c none = false := hmeans [] c s rfl
    rw [insertProductsFrom_cons hc hfirst,
      ih fun v hv hne => hm v (hv.trans (List.suffix_cons c s)) hne]
    · simp
    · intro u d v hs
      have := hmeans (c :: u) d v (by rw [hs]; rfl)
      rwa [List.reverse_cons, List.append_assoc] at this

/-! ### Places where no product is meant -/

theorem meansProduct_of_break (h : ∀ d ∈ before.head?, isWordChar d = false ∧ d ≠ ')')
    (op : Option Operator) : meansProduct before c op = false := by
  cases before with
  | nil => rfl
  | cons d before =>
    obtain ⟨hword, hclose⟩ := h d rfl
    rw [isWordChar, Bool.or_eq_false_iff] at hword
    simp [meansProduct, hword.1, hword.2, hclose]

theorem meansProduct_binary (hc : c ≠ '(') (op : Binary) :
    meansProduct before c (some (.binary op)) = false := by
  cases before with
  | nil => rfl
  | cons d before => simp [meansProduct, isBinaryOperator, Operator.isBinary, hc]

theorem meansProduct_mark (hletter : isAsciiLetter c = false) (hc : c ≠ '(') :
    meansProduct before c none = false := by
  cases before with
  | nil => rfl
  | cons d before => simp [meansProduct, hletter, hc]

/-- A letter behind a letter. -/
theorem meansProduct_letter (h : ∀ d ∈ before.head?, isAsciiLetter d = true) (hc : c ≠ '(') :
    meansProduct before c none = false := by
  cases before with
  | nil => rfl
  | cons d before =>
    have hletter := h d rfl
    have hdigit := isAsciiDigit_of_isAsciiLetter hletter
    have hclose : d ≠ ')' := by
      rintro rfl
      revert hletter
      decide
    simp [meansProduct, hdigit, hclose, hc]

/-- The bracket behind a function. -/
theorem meansProduct_symbol (op : Unary) :
    meansProduct (op.symbol.reverse ++ before) '(' none = false := by
  obtain ⟨op', hback, -⟩ := exists_operatorAtEnd
    ((symbol_suffix_take_iff (.unary op)).mpr (List.prefix_append op.symbol.reverse before))
  have hlast : ∀ d ∈ op.symbol.reverse.head?, isAsciiDigit d = false ∧ d ≠ ')' := by
    cases op <;> decide
  have hne : op.symbol.reverse ≠ [] := by
    simpa using (Operator.unary op).symbol_ne_nil
  obtain ⟨d, t, hsymbol⟩ := List.exists_cons_of_ne_nil hne
  obtain ⟨hdigit, hclose⟩ := hlast d (by rw [hsymbol]; rfl)
  rw [← backTrack] at hback
  rw [hsymbol, List.cons_append] at hback ⊢
  simp [meansProduct, hdigit, hclose, hback, isAsciiLetter]

end

/-! ### Preparing a plain phrase -/

/-- What `prepare` makes of a text, however long it is. -/
def prepared (s : List Char) : List Char :=
  insertProducts (expandScientific (normalize s))

/-- A text of plain characters in which no `e` stands behind a digit and no product is meant is
prepared. -/
theorem prepared_eq_self {s : List Char} (hplain : ∀ c ∈ s, isPlainChar c = true)
    (hquiet : s.IsChain IsQuiet) (hinsert : insertProducts s = s) : prepared s = s := by
  have hexpand : expandScientific s = s := expandScientificFrom_eq_self hquiet (by simp)
  rw [prepared, normalize_eq_self hplain, hexpand, hinsert]

theorem prepare_eq_self {s : List Char} (hlength : s.length ≤ maxLength) (hne : s ≠ [])
    (hplain : ∀ c ∈ s, isPlainChar c = true) (hquiet : s.IsChain IsQuiet)
    (hinsert : insertProducts s = s) : prepare s = .ok s := by
  rw [prepare_eq_ok_iff]
  refine ⟨hlength, ?_, prepared_eq_self hplain hquiet hinsert⟩
  rwa [normalize_eq_self hplain]

theorem isAsciiLetter_of_isNeat {s u v : List Char} {c : Char} (h : IsNeat s) (hs : s = u ++ c :: v)
    (hc : isAsciiLetter c = true) : ∀ d ∈ u, isAsciiLetter d = true := by
  obtain ⟨letters, digits, rfl, -, hl, hd⟩ := h
  have hdigit : c ∉ digits := by
    intro hmem
    have := hd c hmem
    rw [isAsciiDigit_of_isAsciiLetter hc] at this
    cases this
  rcases List.append_eq_append_iff.mp hs with ⟨w, rfl, hw⟩ | ⟨w, rfl, hw⟩
  · refine absurd ?_ hdigit
    rw [hw]
    simp
  · intro d hmem
    simp [isAsciiLetter, hl d (List.mem_append_left w hmem)]

namespace Phrase
variable {before rest : List Char}

theorem insertProductsFrom_literal {l : Literal} (h : ∀ c ∈ l.chars, isNumeral c = true) :
    insertProductsFrom before (l.chars ++ rest) =
      l.chars ++ insertProductsFrom (l.chars.reverse ++ before) rest := by
  refine insertProductsFrom_plain ?_ ?_
  · intro v hv hne
    obtain ⟨c, s, rfl⟩ := List.exists_cons_of_ne_nil hne
    exact longestMatch_of_isDigit
      (mem_isMagnitude l.isMagnitude (hv.subset (List.mem_cons_self ..))) _
  · intro u c v hs
    have hc := h c (by rw [hs]; simp)
    refine meansProduct_mark ?_ ?_
    · by_contra hletter
      rw [isNumeral, Bool.or_eq_true, decide_eq_true_eq] at hc
      rcases hc with hc | rfl
      · rw [isAsciiDigit_of_isAsciiLetter (by simpa using hletter)] at hc
        cases hc
      · revert hletter
        decide
    · rintro rfl
      revert hc
      decide

theorem insertProductsFrom_name {x : Name} (h : IsNeat x.chars)
    (hbefore : ∀ c ∈ before.head?, isWordChar c = false ∧ c ≠ ')')
    (hrest : ∀ c ∈ rest.head?, isWordChar c = false) :
    insertProductsFrom before (x.chars ++ rest) =
      x.chars ++ insertProductsFrom (x.chars.reverse ++ before) rest := by
  have hword : ∀ c ∈ x.chars, isWordChar c = true := fun _ => mem_isIdentifier x.isIdentifier
  refine insertProductsFrom_plain ?_ ?_
  · exact fun v hv hne => longestMatch_of_suffix x.hasOperator hword hv hne hrest
  · intro u c v hs
    have hopen : c ≠ '(' := by
      rintro rfl
      have := hword '(' (by rw [hs]; simp)
      revert this
      decide
    cases hletter : isAsciiLetter c with
    | false => exact meansProduct_mark hletter hopen
    | true =>
      by_cases hu : u = []
      · rw [hu]
        exact meansProduct_of_break hbefore none
      · refine meansProduct_letter (fun d hd => ?_) hopen
        rw [List.head?_append_of_ne_nil _ (by simpa using hu), List.head?_reverse] at hd
        exact isAsciiLetter_of_isNeat h hs hletter d (List.mem_of_getLast? hd)

/-- Behind a mark, an opening bracket or nothing. -/
theorem isBreak_symbol {op : Binary} (hop : op ≠ .log) (before : List Char) :
    ∀ c ∈ (op.symbol.reverse ++ before).head?, isWordChar c = false ∧ c ≠ ')' := by
  have hne : op.symbol.reverse ≠ [] := by
    simpa using (Operator.binary op).symbol_ne_nil
  rw [List.head?_append_of_ne_nil _ hne]
  cases op <;> first | decide | exact absurd rfl hop

theorem insertProductsFrom_binary {p : Phrase} (h : p.WellFormed) (op : Binary) :
    insertProductsFrom before (op.symbol ++ (p.text ++ rest)) =
      op.symbol ++ insertProductsFrom (op.symbol.reverse ++ before) (p.text ++ rest) := by
  refine @insertProductsFrom_symbol before _ (.binary op) (longestMatch_binary h op rest) ?_
  rintro c hc
  refine meansProduct_binary ?_ op
  rintro rfl
  exact (Operator.binary op).not_mem_symbol (by decide) (List.mem_of_mem_head? hc)

theorem insertProductsFrom_inBrackets {s : List Char}
    (hopen : meansProduct before '(' none = false)
    (h : ∀ before rest : List Char, (∀ c ∈ before.head?, isWordChar c = false ∧ c ≠ ')') →
      (∀ c ∈ rest.head?, isWordChar c = false) →
      insertProductsFrom before (s ++ rest) =
        s ++ insertProductsFrom (s.reverse ++ before) rest) :
    insertProductsFrom before (Tree.inBrackets s ++ rest) =
      Tree.inBrackets s ++ insertProductsFrom ((Tree.inBrackets s).reverse ++ before) rest := by
  have hclose : ∀ before : List Char, meansProduct before ')' none = false :=
    fun before => meansProduct_mark (by decide) (by decide)
  have hinner := h ('(' :: before) (')' :: rest) (by simp; decide) (by simp; decide)
  simp only [Tree.inBrackets, List.cons_append, List.append_assoc, List.nil_append]
  rw [insertProductsFrom_cons (longestMatch_bracket (.inl rfl) _) hopen, hinner,
    insertProductsFrom_cons (longestMatch_bracket (.inr rfl) _) (hclose _)]
  simp

theorem insertProductsFrom_text {p : Phrase} (h : p.WellFormed) (hplain : p.IsPlain)
    (hbefore : ∀ c ∈ before.head?, isWordChar c = false ∧ c ≠ ')')
    (hrest : p.endsInName = true → ∀ c ∈ rest.head?, isWordChar c = false) :
    insertProductsFrom before (p.text ++ rest) =
      p.text ++ insertProductsFrom (p.text.reverse ++ before) rest := by
  induction h generalizing before rest with
  | literal l => exact insertProductsFrom_literal hplain
  | name x => exact insertProductsFrom_name hplain hbefore (hrest rfl)
  | group _ ih =>
    refine insertProductsFrom_inBrackets (meansProduct_of_break hbefore none) fun b r hb hr => ?_
    exact ih hplain hb fun _ => hr
  | @apply op p _ ih =>
    have hsymbol := @insertProductsFrom_symbol before _ (.unary op) (longestMatch_unary op p rest)
      fun c _ => meansProduct_of_break hbefore _
    have hinner := @insertProductsFrom_inBrackets (op.symbol.reverse ++ before) rest p.text
      (meansProduct_symbol op) fun b r hb hr => ih hplain hb fun _ => hr
    rw [Operator.symbol_unary, hinner] at hsymbol
    rw [text, List.append_assoc, hsymbol]
    simp
  | @signed op p hop hp _ ih =>
    rw [text, List.append_assoc, insertProductsFrom_binary hp,
      ih hplain (isBreak_symbol (ne_log_of_isSign hop) before) hrest]
    simp
  | @join op l r hl hr _ _ _ ihl ihr =>
    have hleft := @ihl before (op.symbol ++ (r.text ++ rest)) hplain.2.1 hbefore
      fun _ => head_symbol_append hplain.1 _
    rw [text, List.append_assoc, List.append_assoc, hleft, insertProductsFrom_binary hr,
      ihr hplain.2.2 (isBreak_symbol hplain.1 _) hrest]
    simp

theorem insertProducts_text {p : Phrase} (h : p.WellFormed) (hplain : p.IsPlain) :
    insertProducts p.text = p.text := by
  have hinsert := @insertProductsFrom_text [] [] p h hplain (by simp) (by simp)
  rwa [List.append_nil, insertProductsFrom, List.append_nil] at hinsert

theorem prepared_text {p : Phrase} (h : p.WellFormed) (hplain : p.IsPlain) :
    prepared p.text = p.text :=
  prepared_eq_self (fun _ hc => isPlainChar_of_mem_text h hplain hc) (isChain_text h hplain)
    (insertProducts_text h hplain)

theorem prepare_text {p : Phrase} (h : p.WellFormed) (hplain : p.IsPlain)
    (hlength : p.text.length ≤ maxLength) : prepare p.text = .ok p.text :=
  prepare_eq_self hlength (text_ne_nil h) (fun _ hc => isPlainChar_of_mem_text h hplain hc)
    (isChain_text h hplain) (insertProducts_text h hplain)

end Phrase

end Reckon.Formula
