import Mathlib.Data.List.Infix
import Reckon.Formula.Prepared
import Reckon.Proofs.Characters

/-!
# Finding operators in texts

`longestMatch` finds the longest symbol at the beginning of a text (`longestMatch_eq_some_iff`), and
`backTrack` says whether a binary operator ends a text (`isBinaryOperator_backTrack_iff`). A symbol
is a word of letters and digits or consists of other marks; a word is continued only by letters and
digits, marks only by `=` (`continuation`), so a symbol is found where anything else follows it
(`longestMatch_symbol_append`).
-/

namespace Reckon

open Reckon.Text

/-! ### Ends of texts -/

section
variable {s v rest before : List Char}

/-- What begins `v` and its continuation begins `v` if it does not go on like the continuation. -/
theorem prefix_of_prefix_append (hv : v ≠ []) (h : s <+: v ++ rest)
    (hrest : ∀ c ∈ rest.head?, c ∉ s.tail) : s <+: v := by
  rcases Nat.le_total s.length v.length with hlen | hlen
  · exact List.prefix_of_prefix_length_le h (List.prefix_append v rest) hlen
  · obtain ⟨w, rfl⟩ := List.prefix_of_prefix_length_le (List.prefix_append v rest) h hlen
    cases w with
    | nil => simp
    | cons c w =>
      rw [List.prefix_append_right_inj] at h
      obtain ⟨t, rfl⟩ := h
      obtain ⟨d, v, rfl⟩ := List.exists_cons_of_ne_nil hv
      exact absurd (by simp) (hrest c rfl)

theorem suffix_of_suffix_append (hv : v ≠ []) (h : s <:+ before ++ v)
    (hbefore : ∀ c ∈ before.getLast?, c ∉ s.dropLast) : s <:+ v := by
  rw [← List.reverse_prefix] at h ⊢
  rw [List.reverse_append] at h
  refine prefix_of_prefix_append (by simpa using hv) h ?_
  intro c hc hmem
  rw [List.head?_reverse] at hc
  rw [List.tail_reverse, List.mem_reverse] at hmem
  exact hbefore c hc hmem

end

namespace Operator

/-! ### Symbols -/

/-- A property of operators is decided by looking at each of them. -/
theorem forall_of_byLength {p : Operator → Prop} (h : ∀ op ∈ byLength, p op) (op : Operator) :
    p op :=
  h op (mem_byLength op)

theorem forall₂_of_byLength {p : Operator → Operator → Prop}
    (h : ∀ op ∈ byLength, ∀ op' ∈ byLength, p op op') (op op' : Operator) : p op op' :=
  h op (mem_byLength op) op' (mem_byLength op')

theorem symbol_injective {op op' : Operator} (h : op.symbol = op'.symbol) : op = op' :=
  forall₂_of_byLength (p := fun op op' => op.symbol = op'.symbol → op = op')
    (by decide +kernel) op op' h

@[simp] theorem symbol_unary (op : Unary) : (unary op).symbol = op.symbol := rfl

@[simp] theorem symbol_binary (op : Binary) : (binary op).symbol = op.symbol := rfl

theorem symbol_ne_nil (op : Operator) : op.symbol ≠ [] :=
  List.ne_nil_of_length_pos op.length_symbol_pos

theorem length_symbol_le (op : Operator) : op.symbol.length ≤ Formula.maxSymbolLength :=
  forall_of_byLength (p := fun op => op.symbol.length ≤ Formula.maxSymbolLength)
    (by decide) op

theorem byLength_pairwise :
    byLength.Pairwise fun op op' => op'.symbol.length ≤ op.symbol.length := by
  decide

/-- Whether the symbol is a name. -/
def isWord (op : Operator) : Bool :=
  op.symbol.all isWordChar

theorem isWordChar_of_isWord {op : Operator} (h : op.isWord = true) {c : Char}
    (hc : c ∈ op.symbol) : isWordChar c = true :=
  List.all_eq_true.mp h c hc

/-- A symbol that is no name has no letter and no digit in it. -/
theorem isWordChar_of_not_isWord {op : Operator} (h : op.isWord = false) {c : Char}
    (hc : c ∈ op.symbol) : isWordChar c = false :=
  forall_of_byLength
    (p := fun op => op.isWord = false → ∀ c ∈ op.symbol, isWordChar c = false)
    (by decide) op h c hc

/-- A symbol with a letter or a digit in it is a name. -/
theorem isWord_of_mem {op : Operator} {c : Char} (hc : c ∈ op.symbol) (h : isWordChar c = true) :
    op.isWord = true := by
  by_contra hmark
  rw [isWordChar_of_not_isWord (by simpa using hmark) hc] at h
  cases h

theorem head?_symbol_append (op : Operator) (s : List Char) :
    (op.symbol ++ s).head? = op.symbol.head? :=
  List.head?_append_of_ne_nil _ op.symbol_ne_nil

/-- What is in no symbol: brackets, the decimal point, line ends. -/
theorem not_mem_symbol (op : Operator) {c : Char} (hc : c ∈ ['(', ')', '.', '\n']) :
    c ∉ op.symbol :=
  forall_of_byLength (p := fun op => ∀ c ∈ ['(', ')', '.', '\n'], c ∉ op.symbol)
    (by decide) op c hc

/-- No symbol begins with a digit. -/
theorem isDigit_head (op : Operator) {c : Char} (h : c ∈ op.symbol.head?) : isDigit c = false :=
  forall_of_byLength (p := fun op => ∀ c ∈ op.symbol.head?, isDigit c = false)
    (by decide) op c h

/-- A symbol does not reach across a place that has a letter or digit on one side only. -/
theorem symbol_prefix_of_append {op : Operator} {v rest : List Char}
    (hv : ∃ c ∈ v.head?, isWordChar c = true) (hrest : ∀ c ∈ rest.head?, isWordChar c = false)
    (h : op.symbol <+: v ++ rest) : op.symbol <+: v := by
  obtain ⟨c, hc, hword⟩ := hv
  have hne : v ≠ [] := by
    rintro rfl
    cases hc
  have hmem : c ∈ op.symbol.head? := by
    obtain ⟨t, ht⟩ := h
    rw [← op.head?_symbol_append t, ht, List.head?_append_of_ne_nil _ hne]
    exact hc
  have hisWord := isWord_of_mem (List.mem_of_mem_head? hmem) hword
  refine prefix_of_prefix_append hne h ?_
  intro e he hsymbol
  have := isWordChar_of_isWord hisWord (List.mem_of_mem_tail hsymbol)
  rw [hrest e he] at this
  cases this

theorem symbol_suffix_of_append {op : Operator} {before v : List Char}
    (hv : ∃ c ∈ v.getLast?, isWordChar c = true)
    (hbefore : ∀ c ∈ before.getLast?, isWordChar c = false)
    (h : op.symbol <:+ before ++ v) : op.symbol <:+ v := by
  obtain ⟨c, hc, hword⟩ := hv
  have hne : v ≠ [] := by
    rintro rfl
    cases hc
  have hmem : c ∈ op.symbol.getLast? := by
    obtain ⟨t, ht⟩ := h
    rw [← List.getLast?_append_of_ne_nil t op.symbol_ne_nil, ht,
      List.getLast?_append_of_ne_nil _ hne]
    exact hc
  have hisWord := isWord_of_mem (List.mem_of_getLast? hmem) hword
  refine suffix_of_suffix_append hne h ?_
  intro e he hsymbol
  have := isWordChar_of_isWord hisWord (List.mem_of_mem_dropLast hsymbol)
  rw [hbefore e he] at this
  cases this

/-- A symbol that continues another one: a word goes on with a letter or a digit, and no word goes
on behind `log`; marks go on with `=`. -/
theorem continuation {op op' : Operator} {c : Char} {s : List Char}
    (h : op'.symbol = op.symbol ++ c :: s) :
    if op.isWord then isWordChar c = true ∧ op ≠ .binary .log else c = '=' := by
  have key := forall₂_of_byLength
    (p := fun op op' => op.symbol.isPrefixOf op'.symbol = true →
      ∀ c ∈ (op'.symbol.drop op.symbol.length).head?,
        if op.isWord then isWordChar c = true ∧ op ≠ .binary .log else c = '=')
    (by decide +kernel) op op'
  refine key (List.isPrefixOf_iff_prefix.mpr ⟨c :: s, h.symm⟩) c ?_
  simp [h]

/-- No symbol ends with the symbol of a binary operator except that one. -/
theorem eq_of_symbol_suffix {b : Binary} {op : Operator} (h : b.symbol <:+ op.symbol) :
    op = .binary b :=
  forall₂_of_byLength
    (p := fun op op' => op.isBinary = true → op.symbol.isSuffixOf op'.symbol = true → op' = op)
    (by decide +kernel) (.binary b) op rfl (List.isSuffixOf_iff_suffix.mpr h)

/-! ### The longest match -/

theorem symbol_prefix_of_longestMatch {s : List Char} {op : Operator}
    (h : longestMatch s = some op) : op.symbol <+: s := by
  have hp := List.find?_some h
  exact List.isPrefixOf_iff_prefix.mp hp

theorem longestMatch_eq_none_iff {s : List Char} :
    longestMatch s = none ↔ ∀ op : Operator, ¬ op.symbol <+: s := by
  simp only [longestMatch, List.find?_eq_none, List.isPrefixOf_iff_prefix]
  exact ⟨fun h op => h op (mem_byLength op), fun h op _ => h op⟩

/-- No operator begins where no symbol has its first character. -/
theorem longestMatch_cons_eq_none {c : Char} {s : List Char}
    (h : ∀ op : Operator, c ∉ op.symbol.head?) : longestMatch (c :: s) = none := by
  refine longestMatch_eq_none_iff.mpr ?_
  rintro op ⟨t, ht⟩
  refine h op ?_
  rw [← op.head?_symbol_append t, ht]
  rfl

/-- No symbol that the text begins with is longer than the one that is found. -/
theorem length_le_of_longestMatch {s : List Char} {op op' : Operator}
    (h : longestMatch s = some op) (h' : op'.symbol <+: s) :
    op'.symbol.length ≤ op.symbol.length := by
  obtain ⟨-, before, after, heq, hbefore⟩ := List.find?_eq_some_iff_append.mp h
  have hmem := mem_byLength op'
  have hsorted := byLength_pairwise
  rw [heq] at hmem hsorted
  rcases List.mem_append.mp hmem with hmem | hmem
  · have := hbefore op' hmem
    rw [List.isPrefixOf_iff_prefix.mpr h'] at this
    cases this
  rcases List.mem_cons.mp hmem with rfl | hmem
  · exact Nat.le_refl _
  · exact (List.pairwise_cons.mp (List.pairwise_append.mp hsorted).2.1).1 op' hmem

theorem longestMatch_eq_some_iff {s : List Char} {op : Operator} :
    longestMatch s = some op ↔
      op.symbol <+: s ∧ ∀ op' : Operator, op'.symbol <+: s →
        op'.symbol.length ≤ op.symbol.length := by
  constructor
  · intro h
    exact ⟨symbol_prefix_of_longestMatch h, fun _ h' => length_le_of_longestMatch h h'⟩
  · rintro ⟨hp, hmax⟩
    cases hm : longestMatch s with
    | none => exact absurd hp (longestMatch_eq_none_iff.mp hm op)
    | some op' =>
      have hp' := symbol_prefix_of_longestMatch hm
      have hlen : op'.symbol.length = op.symbol.length :=
        Nat.le_antisymm (hmax op' hp') (length_le_of_longestMatch hm hp)
      rw [symbol_injective ((List.prefix_of_prefix_length_le hp' hp hlen.le).eq_of_length hlen)]

/-- A text with an operator at its beginning is its symbol and the rest. -/
theorem eq_append_of_longestMatch {s : List Char} {op : Operator} (h : longestMatch s = some op) :
    s = op.symbol ++ s.drop op.symbol.length := by
  obtain ⟨t, rfl⟩ := symbol_prefix_of_longestMatch h
  simp

/-- A symbol is found where nothing follows that would make it a part of a longer one. -/
theorem longestMatch_symbol_append {op : Operator} {rest : List Char}
    (h : ∀ c ∈ rest.head?, (op.isWord = true → isWordChar c = false ∨ op = .binary .log) ∧
      (op.isWord = false → c ≠ '=')) :
    longestMatch (op.symbol ++ rest) = some op := by
  refine longestMatch_eq_some_iff.mpr ⟨List.prefix_append _ _, fun op' h' => ?_⟩
  by_contra hlt
  obtain ⟨t, ht⟩ := List.prefix_of_prefix_length_le (List.prefix_append op.symbol rest) h'
    (by omega)
  cases t with
  | nil => simp [← ht] at hlt
  | cons c t =>
    have hc : c ∈ rest.head? := by
      rw [← ht, List.prefix_append_right_inj] at h'
      obtain ⟨u, rfl⟩ := h'
      simp
    have hcont := continuation ht.symm
    obtain ⟨hword, hmark⟩ := h c hc
    cases hop : op.isWord with
    | true =>
      simp only [hop, ↓reduceIte] at hcont
      rcases hword hop with hc' | hc'
      · simp [hc'] at hcont
      · exact hcont.2 hc'
    | false =>
      simp only [hop, Bool.false_eq_true, ↓reduceIte] at hcont
      exact hmark hop hcont

theorem longestMatch_symbol (op : Operator) : longestMatch op.symbol = some op := by
  simpa using @longestMatch_symbol_append op [] (by simp)

end Operator

/-! ### The operator at the end of a text -/

namespace Formula

open Operator

theorem symbol_suffix_of_operatorAtEnd {s : List Char} {op : Operator}
    (h : operatorAtEnd s = some op) : op.symbol <:+ s := by
  induction s with
  | nil => cases h
  | cons c s ih =>
    rw [operatorAtEnd] at h
    split at h
    · rename_i op' hm
      split at h
      · rename_i hlen
        cases h
        rw [(symbol_prefix_of_longestMatch hm).eq_of_length (by simpa using hlen)]
      · exact (ih h).trans (List.suffix_cons c s)
    · exact (ih h).trans (List.suffix_cons c s)

/-- If a symbol ends the text, an operator is found there whose symbol is at least that long. -/
theorem exists_operatorAtEnd {s : List Char} {op : Operator} (h : op.symbol <:+ s) :
    ∃ op', operatorAtEnd s = some op' ∧ op.symbol <:+ op'.symbol := by
  induction s with
  | nil => exact absurd (List.suffix_nil.mp h) op.symbol_ne_nil
  | cons c s ih =>
    rw [operatorAtEnd]
    rcases List.suffix_cons_iff.mp h with heq | hs
    · rw [← heq, longestMatch_symbol]
      have hlen : op.symbol.length = s.length + 1 := by simp [heq]
      simp only [hlen, ↓reduceIte]
      exact ⟨op, rfl, List.suffix_rfl⟩
    · split
      · rename_i op' hm
        split
        · rename_i hlen
          refine ⟨op', rfl, ?_⟩
          rwa [(symbol_prefix_of_longestMatch hm).eq_of_length (by simpa using hlen)]
        · exact ih hs
      · exact ih hs

/-- Only as many characters as a symbol can have decide whether one ends a text. -/
theorem symbol_suffix_take_iff (op : Operator) {before : List Char} :
    op.symbol <:+ (before.take maxSymbolLength).reverse ↔ op.symbol.reverse <+: before := by
  rw [← List.reverse_prefix, List.reverse_reverse, List.prefix_take_iff]
  simp [op.length_symbol_le]

theorem isBinaryOperator_backTrack_iff {before : List Char} :
    isBinaryOperator (backTrack before) = true ↔
      ∃ b : Binary, b.symbol.reverse <+: before := by
  constructor
  · intro h
    rw [isBinaryOperator, Option.any_eq_true] at h
    obtain ⟨op, hop, hb⟩ := h
    cases op with
    | unary _ => cases hb
    | binary b =>
      exact ⟨b, (symbol_suffix_take_iff (.binary b)).mp (symbol_suffix_of_operatorAtEnd hop)⟩
  · rintro ⟨b, hb⟩
    obtain ⟨op, hop, hs⟩ := exists_operatorAtEnd ((symbol_suffix_take_iff (.binary b)).mpr hb)
    rw [eq_of_symbol_suffix hs] at hop
    simp [isBinaryOperator, backTrack, hop, isBinary]

end Formula

end Reckon
