import Reckon.Proofs.PreparedAround
import Reckon.Proofs.PreparedTwice
import Reckon.Proofs.Tokens

/-!
# Products between tokens

Products are put between tokens and never inside of one (`insertProducts_eq_spaced`). In front of
every `*` that is put stands the end of an operand, with one exception: a function right behind the
name of an operator. There the `*` parts an operator from its operand, and the check refuses the
text (`meansProduct_between`).
-/

namespace Reckon.Formula

open Reckon.Text

namespace Token

/-- A digit, a letter of no symbol or a closing bracket. -/
def EndsOperand : Token → Prop
  | operator _ => False
  | character c => isAsciiLetter c = true ∨ isAsciiDigit c = true ∨ c = ')'

/-- An operator of one operand right behind the name of an operator. -/
def ClashesWith (a t : Token) : Prop :=
  ∃ op f, a = operator op ∧ op.isWord = true ∧ t = operator (.unary f)

/-- Whether a product is meant between the text `before`, given last character first, and the
token. -/
def isFactorBehind (before : List Char) (t : Token) : Bool :=
  t.text.head?.any fun c => meansProduct before c t.operator?

theorem isFactorBehind_eq {t : Token} {c : Char} {u : List Char} (h : t.text = c :: u)
    (before : List Char) : t.isFactorBehind before = meansProduct before c t.operator? := by
  simp [isFactorBehind, h]

@[simp] theorem isFactorBehind_character (before : List Char) (c : Char) :
    (character c).isFactorBehind before = meansProduct before c none :=
  isFactorBehind_eq rfl before

end Token

/-- The text of tokens with `*` where products are meant, behind the text `before`, given last
character first. -/
def spacedFrom (before : List Char) : List Token → List Char
  | [] => []
  | t :: l =>
    (if t.isFactorBehind before then ['*'] else []) ++
      (t.text ++ spacedFrom (t.text.reverse ++ before) l)

/-! ### Token by token -/

theorem insertProductsFrom_eq_spacedFrom (before s : List Char) :
    insertProductsFrom before s = spacedFrom before (tokens s) := by
  rcases tokens_cases s with rfl | ⟨op, t, rfl, hm, htokens⟩ | ⟨c, t, rfl, hm, htokens⟩
  · rw [insertProductsFrom, tokens_nil, spacedFrom]
  · have hlt : t.length < (op.symbol ++ t).length := by
      have := op.length_symbol_pos
      rw [List.length_append]
      omega
    obtain ⟨c, u, hsymbol⟩ := List.exists_cons_of_ne_nil op.symbol_ne_nil
    have hs : op.symbol ++ t = c :: (u ++ t) := by rw [hsymbol]; rfl
    have hfactor : (Token.operator op).isFactorBehind before = meansProduct before c (some op) :=
      @Token.isFactorBehind_eq (.operator op) c u hsymbol before
    rw [htokens, spacedFrom, hfactor, ← insertProductsFrom_eq_spacedFrom, Token.text]
    rw [hs] at hm ⊢
    rw [insertProductsFrom_of_some hm, ← hs, List.drop_left, List.append_assoc]
  · rw [htokens, spacedFrom, Token.isFactorBehind_character, ← insertProductsFrom_eq_spacedFrom,
      insertProductsFrom_of_none hm]
    rfl
termination_by s.length

/-- Products are put between tokens, and every token stays whole. -/
theorem insertProducts_eq_spaced (s : List Char) : insertProducts s = spacedFrom [] (tokens s) :=
  insertProductsFrom_eq_spacedFrom [] s

/-- What happens at one token. -/
theorem insertProductsFrom_of_tokens {t : Token} {s : List Char}
    (h : tokens (t.text ++ s) = t :: tokens s) (before : List Char) :
    insertProductsFrom before (t.text ++ s) =
      (if t.isFactorBehind before then ['*'] else []) ++
        (t.text ++ insertProductsFrom (t.text.reverse ++ before) s) := by
  rw [insertProductsFrom_eq_spacedFrom, h, spacedFrom, ← insertProductsFrom_eq_spacedFrom]

theorem spacedFrom_append (before : List Char) (a b : List Token) :
    spacedFrom before (a ++ b) =
      spacedFrom before a ++ spacedFrom ((a.flatMap Token.text).reverse ++ before) b := by
  induction a generalizing before with
  | nil => rfl
  | cons t a ih => simp [spacedFrom, ih]

/-! ### Behind an operator -/

section
variable {before : List Char} {c : Char}

/-- Names end in a letter, other symbols in a mark that is no bracket. -/
theorem getLast_symbol (op : Operator) : ∀ d ∈ op.symbol.reverse.head?,
    isAsciiLetter d = op.isWord ∧ isAsciiDigit d = false ∧ d ≠ ')' := by
  refine Operator.forall_of_byLength (p := fun op => ∀ d ∈ op.symbol.reverse.head?,
    isAsciiLetter d = op.isWord ∧ isAsciiDigit d = false ∧ d ≠ ')') ?_ op
  decide

/-- Behind a symbol a product is meant only if that is a name and an operator of one operand
follows. -/
theorem meansProduct_behind_symbol (op : Operator) (before : List Char) (c : Char)
    (next : Option Operator) :
    meansProduct (op.symbol.reverse ++ before) c next =
      (op.isWord && next.isSome && !isBinaryOperator next) := by
  obtain ⟨d, u, hsymbol⟩ :=
    List.exists_cons_of_ne_nil (List.reverse_ne_nil_iff.mpr op.symbol_ne_nil)
  obtain ⟨hletter, hdigit, hclose⟩ := getLast_symbol op d (by rw [hsymbol]; rfl)
  have hback : (backTrack (op.symbol.reverse ++ before)).isNone = false := by
    rw [← Bool.not_eq_true, isNone_backTrack_iff]
    exact fun h => h op (List.prefix_append _ _)
  rw [hsymbol, List.cons_append] at hback ⊢
  simp [meansProduct, hletter, hdigit, hclose, hback]

theorem meansProduct_behind_character (h : ¬(Token.character c).EndsOperand) (d : Char)
    (next : Option Operator) : meansProduct (c :: before) d next = false := by
  simp only [Token.EndsOperand, not_or, Bool.not_eq_true] at h
  simp [meansProduct, h]

/-- Behind what ends no operand a product is meant only where an operator follows a name. -/
theorem isFactorBehind_iff_clashesWith {a t : Token} (ha : ¬a.EndsOperand) (before : List Char) :
    t.isFactorBehind (a.text.reverse ++ before) = true ↔ a.ClashesWith t := by
  obtain ⟨c, u, htext⟩ := List.exists_cons_of_ne_nil t.text_ne_nil
  rw [Token.isFactorBehind_eq htext]
  cases a with
  | character d =>
    rw [Token.text, List.reverse_singleton, List.singleton_append,
      meansProduct_behind_character ha]
    simp [Token.ClashesWith]
  | operator op =>
    rw [Token.text, meansProduct_behind_symbol]
    rcases t with ⟨f | b⟩ | d
    · simp [Token.ClashesWith, Token.operator?, isBinaryOperator, Operator.isBinary]
    · simp [Token.ClashesWith, Token.operator?, isBinaryOperator, Operator.isBinary]
    · simp [Token.ClashesWith, Token.operator?]

end

/-! ### Refused texts -/

/-- What is free of nonsense is so from each place on. -/
theorem validateCharacters_of_append {u v : List Char} (h : validateCharacters (u ++ v) = .ok ()) :
    validateCharacters v = .ok () := by
  induction u with
  | nil => exact h
  | cons c u ih =>
    refine ih ?_
    rw [List.cons_append, validateCharacters] at h
    split at h
    · split at h
      · split at h
        · exact h
        · cases h
      · exact h
    · split at h
      · exact h
      · cases h

/-- A `*` behind an operator is refused. -/
theorem validateCharacters_star (op : Operator) (v : List Char) :
    validateCharacters (op.symbol ++ '*' :: v) ≠ .ok () := by
  have hm : Operator.longestMatch (op.symbol ++ '*' :: v) = some op := by
    refine Operator.longestMatch_symbol_append fun c hc => ?_
    obtain rfl := Option.some.inj hc
    exact ⟨fun _ => .inl (by decide), fun _ => by decide⟩
  obtain ⟨c, u, hsymbol⟩ := List.exists_cons_of_ne_nil op.symbol_ne_nil
  have hs : op.symbol ++ '*' :: v = c :: (u ++ '*' :: v) := by rw [hsymbol]; rfl
  rw [hs] at hm ⊢
  rw [validateCharacters, hm]
  simp only
  rw [← hs, List.drop_left, longestMatch_star]
  intro h
  cases h

/-- A text with a `*` that parts an operator from its operand is refused. -/
theorem validate_of_clashesWith {s : List Char} {l r : List Token} {a t : Token}
    (h : tokens s = l ++ a :: t :: r) (hclash : a.ClashesWith t) :
    validate (insertProducts s) ≠ .ok () := by
  intro hvalid
  obtain ⟨op, f, rfl, -, rfl⟩ := id hclash
  have hmeans := (isFactorBehind_iff_clashesWith (a := .operator op) id
    ((l.flatMap Token.text).reverse ++ [])).mpr hclash
  have hcharacters := (validate_eq_ok_iff.mp hvalid).2
  rw [insertProducts_eq_spaced, h, spacedFrom_append, spacedFrom, spacedFrom, if_pos hmeans]
    at hcharacters
  have hrest := validateCharacters_of_append (validateCharacters_of_append hcharacters)
  exact validateCharacters_star op _ hrest

/-- Cut into tokens, a text is given a `*` between some of them. Behind a token that ends no operand
that is so exactly where an operator of one operand follows the name of an operator, and then the
text is refused. -/
theorem meansProduct_between (s : List Char) :
    insertProducts s = spacedFrom [] (tokens s) ∧
      (∀ t r, tokens s = t :: r → t.isFactorBehind [] = false) ∧
      ∀ l a t r, tokens s = l ++ a :: t :: r →
        (¬a.EndsOperand →
          (t.isFactorBehind ((l ++ [a]).flatMap Token.text).reverse = true ↔ a.ClashesWith t)) ∧
        (a.ClashesWith t → validate (insertProducts s) ≠ .ok ()) := by
  refine ⟨insertProducts_eq_spaced s, fun t r _ => ?_, fun l a t r h => ⟨fun ha => ?_, ?_⟩⟩
  · obtain ⟨c, u, htext⟩ := List.exists_cons_of_ne_nil t.text_ne_nil
    rw [Token.isFactorBehind_eq htext, meansProduct]
  · have hfront : ((l ++ [a]).flatMap Token.text).reverse =
        a.text.reverse ++ (l.flatMap Token.text).reverse := by
      simp
    rw [hfront]
    exact isFactorBehind_iff_clashesWith ha _
  · exact validate_of_clashesWith h

theorem meansProduct_between_log_sqrt :
    (Token.operator (.unary .sqrt)).isFactorBehind ['g', 'o', 'l', '8'] = true ∧
      validate (insertProducts ['8', 'l', 'o', 'g', 's', 'q', 'r', 't', '(', '4', ')']) ≠
        .ok () := by
  have htokens : tokens ['8', 'l', 'o', 'g', 's', 'q', 'r', 't', '(', '4', ')'] =
      [.character '8'] ++ .operator (.binary .log) :: .operator (.unary .sqrt) ::
        [.character '(', .character '4', .character ')'] := by
    decide +kernel
  have hclash : (Token.operator (.binary .log)).ClashesWith (.operator (.unary .sqrt)) :=
    ⟨_, _, rfl, by decide, rfl⟩
  have h := (meansProduct_between _).2.2 _ _ _ _ htokens
  exact ⟨(h.1 id).mpr hclash, h.2 hclash⟩

end Reckon.Formula
