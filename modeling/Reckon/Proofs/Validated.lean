import Reckon.Proofs.Prepared

/-!
# Texts that are no nonsense

The check of a prepared text looks at every place in it. In the text of a plain phrase it finds the
symbols that were written, the ends of functions' names that are names of functions themselves, and
in front of every operand at most a sign (`isSign_of_longestMatch_text`); so it has no objection
(`validate_text`).
-/

namespace Reckon.Formula

open Reckon.Text

/-! ### One place of the text -/

/-- The characters that may stand where no operator begins. -/
def isPermitted (c : Char) : Bool :=
  isAsciiLetter c || isAsciiDigit c || isAllowedSymbol c

section
variable {c : Char} {s rest : List Char} {op : Operator}

theorem validateCharacters_of_none (hm : Operator.longestMatch (c :: s) = none)
    (hc : isPermitted c = true) : validateCharacters (c :: s) = validateCharacters s := by
  rw [validateCharacters, hm]
  exact if_pos hc

theorem validateCharacters_of_some (hm : Operator.longestMatch (c :: s) = some op)
    (hnext : ∀ b, Operator.longestMatch ((c :: s).drop op.symbol.length) = some (.binary b) →
      b.isSign = true) : validateCharacters (c :: s) = validateCharacters s := by
  rw [validateCharacters, hm]
  simp only
  split
  · rename_i b hb
    exact if_pos (hnext b hb)
  · rfl

theorem validateCharacters_plain (hm : ∀ v, v <:+ s → v ≠ [] →
      Operator.longestMatch (v ++ rest) = none) (hc : ∀ c ∈ s, isPermitted c = true) :
    validateCharacters (s ++ rest) = validateCharacters rest := by
  induction s with
  | nil => rfl
  | cons c s ih =>
    have hfirst := hm (c :: s) List.suffix_rfl (List.cons_ne_nil c s)
    rw [List.cons_append] at hfirst ⊢
    rw [validateCharacters_of_none hfirst (hc c (List.mem_cons_self ..))]
    exact ih (fun v hv => hm v (hv.trans (List.suffix_cons c s)))
      fun d hd => hc d (List.mem_cons_of_mem c hd)

theorem validateCharacters_bracket (hc : c = '(' ∨ c = ')') :
    validateCharacters (c :: s) = validateCharacters s := by
  refine validateCharacters_of_none (longestMatch_bracket hc s) ?_
  rcases hc with rfl | rfl <;> decide

end

/-! ### Symbols -/

/-- No operator begins at the last character of a mark. -/
theorem longestMatch_of_mark {c : Char} {s : List Char} (hc : c ∈ ['=', '|', '&'])
    (hs : ∀ d ∈ s.head?, d ∉ ['=', '|', '&']) : Operator.longestMatch (c :: s) = none := by
  have hsymbols : ∀ op ∈ Operator.byLength,
      op.symbol.head?.any (fun c => decide (c ∈ ['=', '|', '&'])) = true →
      op.symbol.tail.head?.any (fun d => decide (d ∈ ['=', '|', '&'])) = true := by decide
  refine Operator.longestMatch_eq_none_iff.mpr fun op hp => ?_
  obtain ⟨t, ht⟩ := hp
  obtain ⟨e, u, hsymbol⟩ := List.exists_cons_of_ne_nil op.symbol_ne_nil
  have hhead : e = c ∧ u ++ t = s := by
    rw [hsymbol] at ht
    simpa using ht
  have hsecond := hsymbols op (Operator.mem_byLength op) (by simpa [hsymbol, hhead.1] using hc)
  cases hd : op.symbol.tail.head? with
  | none =>
    rw [hd] at hsecond
    cases hsecond
  | some d =>
    rw [hd] at hsecond
    rw [hsymbol, List.tail_cons] at hd
    refine hs d ?_ (of_decide_eq_true hsecond)
    rw [← hhead.2, List.head?_append, hd]
    rfl

theorem validateCharacters_binary {op : Binary} {s : List Char} (hop : op ≠ .log)
    (hm : Operator.longestMatch (op.symbol ++ s) = some (.binary op))
    (hnext : ∀ b, Operator.longestMatch s = some (.binary b) → b.isSign = true)
    (hs : ∀ d ∈ s.head?, d ∉ ['=', '|', '&']) :
    validateCharacters (op.symbol ++ s) = validateCharacters s := by
  have hsymbol : ∃ c, op.symbol = [c] ∨ ∃ d ∈ ['=', '|', '&'], op.symbol = [c, d] := by
    cases op <;>
      first | exact absurd rfl hop | exact ⟨_, .inl rfl⟩ | exact ⟨_, .inr ⟨_, by decide, rfl⟩⟩
  have hdrop : (op.symbol ++ s).drop (Operator.binary op).symbol.length = s := List.drop_left
  obtain ⟨c, hc | ⟨d, hd, hcd⟩⟩ := hsymbol
  · rw [hc, List.singleton_append] at hm hdrop ⊢
    exact validateCharacters_of_some hm (by rwa [hdrop])
  · rw [hcd, List.cons_append, List.singleton_append] at hm hdrop ⊢
    have hmarks : ∀ d ∈ ['=', '|', '&'], isPermitted d = true := by decide
    rw [validateCharacters_of_some hm (by rwa [hdrop]),
      validateCharacters_of_none (longestMatch_of_mark hd hs) (hmarks d hd)]

/-- A bracket keeps what is in front of it from being part of a longer symbol. -/
theorem longestMatch_append_bracket {c : Char} (hc : c = '(' ∨ c = ')') (s rest : List Char) :
    Operator.longestMatch (s ++ c :: rest) = Operator.longestMatch s := by
  by_cases hs : s = []
  · rw [hs, List.nil_append, longestMatch_bracket hc]
    decide
  unfold Operator.longestMatch
  congr 1
  funext op
  rw [Bool.eq_iff_iff, List.isPrefixOf_iff_prefix, List.isPrefixOf_iff_prefix]
  refine ⟨fun h => prefix_of_prefix_append hs h ?_, fun h => h.trans (List.prefix_append s _)⟩
  rintro d hd hmem
  obtain rfl : c = d := by simpa using hd
  refine op.not_mem_symbol ?_ (List.mem_of_mem_tail hmem)
  rcases hc with rfl | rfl <;> decide

/-- Where a function begins inside of the name of another one, its name goes on to the end. -/
theorem longestMatch_suffix_unary {op : Unary} {c : Char} {v : List Char}
    (hv : c :: v <:+ op.symbol) :
    (Operator.longestMatch (c :: v) = none ∧ isPermitted c = true) ∨
      ∃ op', Operator.longestMatch (c :: v) = some op' ∧ op'.symbol = c :: v := by
  have hsuffixes : ∀ op ∈ Operator.byLength, op.isBinary = false → ∀ w ∈ op.symbol.tails,
      ∀ c ∈ w.head?, if Operator.longestMatch w = none then isPermitted c = true else
        ∀ op' ∈ Operator.longestMatch w, op'.symbol = w := by
    decide +kernel
  have h := hsuffixes (.unary op) (Operator.mem_byLength _) rfl (c :: v)
    ((List.mem_tails _ _).mpr hv) c rfl
  split at h
  · exact .inl ⟨‹_›, h⟩
  · rename_i hm
    obtain ⟨op', hop'⟩ := Option.ne_none_iff_exists'.mp hm
    exact .inr ⟨op', hop', h op' hop'⟩

theorem validateCharacters_unary {op : Unary} {v : List Char} (hv : v <:+ op.symbol)
    (rest : List Char) :
    validateCharacters (v ++ '(' :: rest) = validateCharacters ('(' :: rest) := by
  induction v with
  | nil => rfl
  | cons c v ih =>
    have ih := ih ((List.suffix_cons c v).trans hv)
    have hmatch := longestMatch_append_bracket (.inl rfl) (c :: v) rest
    rw [List.cons_append] at hmatch ⊢
    rcases longestMatch_suffix_unary hv with ⟨hm, hc⟩ | ⟨op', hm, hsymbol⟩
    · rw [validateCharacters_of_none (hmatch.trans hm) hc, ih]
    · rw [validateCharacters_of_some (hmatch.trans hm), ih]
      intro b hb
      rw [hsymbol, ← List.cons_append, List.drop_left, longestMatch_bracket (.inl rfl)] at hb
      cases hb

namespace Phrase

/-- In front of an operand stands no operator but its sign. -/
theorem isSign_of_longestMatch_text {p : Phrase} (h : p.WellFormed) {rest : List Char}
    (hrest : p.endsInName = true → ∀ c ∈ rest.head?, isWordChar c = false) {b : Binary}
    (hm : Operator.longestMatch (p.text ++ rest) = some (.binary b)) : b.isSign = true := by
  have hatom : ∀ {q : Phrase} {rest : List Char}, q.WellFormed → q.isAtom = true →
      (q.endsInName = true → ∀ c ∈ rest.head?, isWordChar c = false) →
      Operator.longestMatch (q.text ++ rest) ≠ some (.binary b) := by
    intro q rest hq hatom hrest hm
    rw [longestMatch_of_isAtom hq hatom hrest] at hm
    cases hm
  induction h generalizing rest with
  | literal l => exact absurd hm (hatom (.literal l) rfl hrest)
  | name x => exact absurd hm (hatom (.name x) rfl hrest)
  | group hp => exact absurd hm (hatom (.group hp) rfl hrest)
  | @apply op p hp _ =>
    rw [text, List.append_assoc, longestMatch_unary op p rest] at hm
    cases hm
  | @signed op p hop hp _ _ =>
    rw [text, List.append_assoc, longestMatch_binary hp op rest] at hm
    cases hm
    exact hop
  | @join op l r _ _ _ _ hlog ih _ =>
    rw [text, List.append_assoc, List.append_assoc] at hm
    refine ih (fun hname => ?_) hm
    by_cases hop : op = .log
    · rw [endsInName_of_isClosed (hlog hop).1] at hname
      cases hname
    · exact head_symbol_append hop _

theorem isPermitted_of_isNumeral {c : Char} (h : isNumeral c = true) : isPermitted c = true := by
  rw [isNumeral, Bool.or_eq_true, decide_eq_true_eq] at h
  rcases h with h | rfl
  · simp [isPermitted, h]
  · decide

theorem validateCharacters_inBrackets {s rest : List Char}
    (h : validateCharacters (s ++ ')' :: rest) = validateCharacters (')' :: rest)) :
    validateCharacters (Tree.inBrackets s ++ rest) = validateCharacters rest := by
  have htext : Tree.inBrackets s ++ rest = '(' :: (s ++ ')' :: rest) := by simp [Tree.inBrackets]
  rw [htext, validateCharacters_bracket (.inl rfl), h, validateCharacters_bracket (.inr rfl)]

theorem validateCharacters_text {p : Phrase} (h : p.WellFormed) (hplain : p.IsPlain)
    {rest : List Char} (hrest : p.endsInName = true → ∀ c ∈ rest.head?, isWordChar c = false) :
    validateCharacters (p.text ++ rest) = validateCharacters rest := by
  have hclose : ∀ rest : List Char, ∀ c ∈ (')' :: rest).head?, isWordChar c = false := by
    intro rest c hc
    obtain rfl : ')' = c := by simpa using hc
    decide
  induction h generalizing rest with
  | literal l =>
    refine validateCharacters_plain (fun v hv hne => ?_) fun c hc =>
      isPermitted_of_isNumeral (hplain c hc)
    obtain ⟨c, s, rfl⟩ := List.exists_cons_of_ne_nil hne
    exact longestMatch_of_isDigit
      (mem_isMagnitude l.isMagnitude (hv.subset (List.mem_cons_self ..))) _
  | name x =>
    have hword : ∀ c ∈ x.chars, isWordChar c = true := fun _ => mem_isIdentifier x.isIdentifier
    refine validateCharacters_plain (fun v hv hne => ?_) fun c hc => ?_
    · exact longestMatch_of_suffix x.hasOperator hword hv hne (hrest rfl)
    · have := hword c hc
      rw [isWordChar] at this
      rw [isPermitted, this, Bool.true_or]
  | group _ ih => exact validateCharacters_inBrackets (ih hplain fun _ => hclose rest)
  | @apply op p _ ih =>
    rw [text, List.append_assoc]
    exact (validateCharacters_unary List.suffix_rfl _).trans
      (validateCharacters_inBrackets (ih hplain fun _ => hclose rest))
  | @signed op p hop hp _ ih =>
    rw [text, List.append_assoc, validateCharacters_binary (ne_log_of_isSign hop)
      (longestMatch_binary hp op rest) (fun b => isSign_of_longestMatch_text hp hrest)
      (head_text_not_mem hp rest)]
    exact ih hplain hrest
  | @join op l r hl hr _ _ _ ihl ihr =>
    rw [text, List.append_assoc, List.append_assoc,
      ihl hplain.2.1 fun _ => head_symbol_append hplain.1 _,
      validateCharacters_binary hplain.1 (longestMatch_binary hr op rest)
        (fun b => isSign_of_longestMatch_text hr hrest) (head_text_not_mem hr rest)]
    exact ihr hplain.2.2 hrest

end Phrase

/-! ### Brackets in equal numbers -/

theorem isBalanced_of_nested {s : List Char} (h : Nested s) : isBalanced s = true := by
  rw [isBalanced, decide_eq_true_eq]
  induction h with
  | nil => rfl
  | @cons c s hc _ ih =>
    rw [isBracket, Bool.or_eq_false_iff, decide_eq_false_iff_not, decide_eq_false_iff_not] at hc
    simp [hc, ih]
  | @group s s' _ _ ih ih' =>
    simp [ih, ih']
    omega

/-- The text of a plain phrase is accepted as it is. -/
theorem Phrase.validate_text {p : Phrase} (h : p.WellFormed) (hplain : p.IsPlain) :
    validate p.text = .ok () := by
  have hcharacters := @Phrase.validateCharacters_text p h hplain [] (by simp)
  rw [List.append_nil] at hcharacters
  rw [validate, isBalanced_of_nested (Phrase.nested_text h), hcharacters]
  rfl

end Reckon.Formula
