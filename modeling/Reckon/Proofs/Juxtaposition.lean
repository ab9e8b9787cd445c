import Reckon.Proofs.TokenProducts

/-!
# Factors side by side

A number, names, texts in brackets and functions of such texts, one right behind the other, are a
product: exactly one `*` is put between any two of them, and apart from that only what is in the
brackets is changed, as if it stood alone (`insertProducts_factors`).

The proof goes from factor to factor. What it needs to know of the text in front of a name is that
no symbol begins in it and goes on in the name (`IsParted`).
-/

namespace Reckon.Formula

open Reckon.Text

/-- A factor of a product that is written without `*`. -/
inductive Factor where
  | literal (chars : List Char) (isMagnitude : isMagnitude chars = true)
      (isAsciiDigit_getLast : ∀ d ∈ chars.getLast?, isAsciiDigit d = true)
  | name (letters digits : List Char) (ne_nil : letters ≠ [])
      (isAsciiLetter : ∀ c ∈ letters, isAsciiLetter c = true)
      (isAsciiDigit : ∀ c ∈ digits, isAsciiDigit c = true)
  | group (inner : List Char)
  | apply (op : Unary) (isWord : (Operator.unary op).isWord = true) (inner : List Char)

namespace Factor

def text : Factor → List Char
  | literal chars .. => chars
  | name letters digits .. => letters ++ digits
  | group inner => Tree.inBrackets inner
  | apply op _ inner => op.symbol ++ Tree.inBrackets inner

/-- The tokens of a factor, if the only operators in it outside of brackets are functions. -/
def tokens : Factor → List Token
  | literal chars .. => chars.map .character
  | name letters digits .. => (letters ++ digits).map .character
  | group inner => .character '(' :: Formula.tokens inner ++ [.character ')']
  | apply op _ inner =>
    .operator (.unary op) :: .character '(' :: Formula.tokens inner ++ [.character ')']

/-- The factor with products put into its brackets. -/
def withProducts : Factor → List Char
  | literal chars .. => chars
  | name letters digits .. => letters ++ digits
  | group inner => Tree.inBrackets (insertProducts inner)
  | apply op _ inner => op.symbol ++ Tree.inBrackets (insertProducts inner)

def isLiteral : Factor → Bool
  | literal .. => true
  | _ => false

def isName : Factor → Bool
  | name .. => true
  | _ => false

/-- Numbers stand in front, and no name stands right behind another one. -/
def MayFollow (f g : Factor) : Prop :=
  g.isLiteral = false ∧ ¬(f.isName = true ∧ g.isName = true)

/-- Whether a product is meant between the text `before`, given last character first, and the
factor. -/
def isMeantBehind (before : List Char) (f : Factor) : Bool :=
  f.tokens.head?.any fun t => t.isFactorBehind before

theorem isMeantBehind_eq {f : Factor} {t : Token} {l : List Token} (h : f.tokens = t :: l)
    (before : List Char) : f.isMeantBehind before = t.isFactorBehind before := by
  rw [isMeantBehind, h]
  rfl

/-- As much of the text up to the end of the factor as matters behind it, last character first. -/
def behind (before : List Char) : Factor → List Char
  | literal chars .. => chars.reverse ++ before
  | name letters digits .. => (letters ++ digits).reverse ++ before
  | group _ | apply .. => [')']

end Factor

/-! ### Texts in brackets -/

theorem insertProductsFrom_group (before inner rest : List Char) :
    insertProductsFrom before (Tree.inBrackets inner ++ rest) =
      (if meansProduct before '(' none then ['*'] else []) ++
        (Tree.inBrackets (insertProducts inner) ++ insertProductsFrom [')'] rest) := by
  have hopen : insertProductsFrom ['('] inner = insertProducts inner :=
    insertProductsFrom_congr (fun u d op => by rw [meansProduct_open, List.append_nil]) inner
  have hclose : meansProduct (inner.reverse ++ ['(']) ')' none = false :=
    meansProduct_mark (by decide) (by decide)
  have htext : ∀ s rest : List Char, Tree.inBrackets s ++ rest = [] ++ '(' :: (s ++ ')' :: rest) :=
    fun s rest => by simp [Tree.inBrackets]
  rw [htext, htext, insertProductsFrom_append_bracket (.inl rfl),
    insertProductsFrom_append_bracket (.inr rfl), hopen, hclose, insertProductsFrom]
  rfl

theorem tokens_group (inner rest : List Char) :
    tokens (Tree.inBrackets inner ++ rest) =
      .character '(' :: tokens inner ++ .character ')' :: tokens rest := by
  have hfront := tokens_append_bracket (.inl rfl) [] (inner ++ ')' :: rest)
  rw [tokens_append_bracket (.inr rfl), tokens_nil] at hfront
  simpa [Tree.inBrackets] using hfront

/-! ### Symbols that would reach into a name -/

/-- No symbol begins in the text, given last character first, and goes on behind it. -/
def IsParted (before : List Char) : Prop :=
  ∀ (op : Operator) (u v : List Char), op.symbol.reverse = u ++ v → v <+: before → v = []

theorem isParted_nil : IsParted [] :=
  fun _ _ _ _ h => List.prefix_nil.mp h

theorem isParted_bracket : IsParted [')'] := by
  intro op u v hop hv
  by_contra hne
  have hmem : ')' ∈ op.symbol.reverse := by
    rcases List.prefix_cons_iff.mp hv with hnil | ⟨t, ht, -⟩
    · exact absurd hnil hne
    · simp [hop, ht]
  exact op.not_mem_symbol (by decide) (List.mem_reverse.mp hmem)

theorem isParted_isMagnitude {s : List Char} (h : isMagnitude s = true) : IsParted s.reverse := by
  intro op u v hop hv
  by_contra hne
  obtain ⟨c, hc⟩ := Option.ne_none_iff_exists'.mp (mt List.getLast?_eq_none_iff.mp hne)
  have hhead : c ∈ op.symbol.head? := by
    rw [← List.getLast?_reverse, hop, List.getLast?_append_of_ne_nil _ hne]
    exact hc
  have hmem : c ∈ s := List.mem_reverse.mp (hv.subset (List.mem_of_getLast? hc))
  rcases mem_isMagnitude h hmem with hdigit | rfl
  · rw [op.isDigit_head hhead] at hdigit
    cases hdigit
  · exact op.not_mem_symbol (by decide) (List.mem_of_mem_head? hhead)

/-- No symbol ends a name in which none begins. -/
theorem isNone_backTrack_of_isParted {before s rest : List Char} (hbefore : IsParted before)
    (hm : ∀ v, v <:+ s → v ≠ [] → Operator.longestMatch (v ++ rest) = none) :
    (backTrack (s.reverse ++ before)).isNone = true := by
  rw [isNone_backTrack_iff]
  intro op hop
  have hinside : ¬op.symbol <:+ s := fun hsuffix =>
    Operator.longestMatch_eq_none_iff.mp (hm _ hsuffix op.symbol_ne_nil) op (List.prefix_append ..)
  rcases List.prefix_or_prefix_of_prefix hop (List.prefix_append s.reverse before) with h | ⟨v, hv⟩
  · exact hinside (List.reverse_prefix.mp h)
  · rw [← hv, List.prefix_append_right_inj] at hop
    have hnil := hbefore op s.reverse v hv.symm hop
    rw [hnil, List.append_nil] at hv
    exact hinside (List.reverse_prefix.mp (by rw [hv]))

/-! ### One factor -/

namespace Factor
variable {f g : Factor} {before rest : List Char} {l : List Token}

/-- What the tokens of a factor in a text say about its characters and about the rest. -/
theorem longestMatch_of_tokens (h : Formula.tokens (f.text ++ rest) = f.tokens ++ l) :
    (f.isName = true → ∀ v, v <:+ f.text → v ≠ [] → Operator.longestMatch (v ++ rest) = none) ∧
      Formula.tokens rest = l := by
  cases f with
  | literal chars => exact ⟨fun hn => (by cases hn), (Formula.longestMatch_of_tokens h).2⟩
  | name letters digits =>
    obtain ⟨hnone, hrest⟩ := Formula.longestMatch_of_tokens h
    exact ⟨fun _ => hnone, hrest⟩
  | group inner =>
    rw [text, tokens, tokens_group] at h
    exact ⟨fun hn => (by cases hn), by simpa using h⟩
  | apply op hop inner =>
    rw [text, tokens, List.append_assoc] at h
    obtain ⟨t, ht, -, htokens⟩ := exists_of_tokens_operator h
    obtain rfl := List.append_cancel_left ht
    rw [tokens_group] at htokens
    exact ⟨fun hn => (by cases hn), by simpa using htokens⟩

/-- No product is meant inside of a name. -/
theorem meansProduct_inside_name {letters digits u v : List Char} {c d : Char}
    (hl : ∀ c ∈ letters, isAsciiLetter c = true) (hd : ∀ c ∈ digits, isAsciiDigit c = true)
    (h : letters ++ digits = u ++ d :: c :: v) :
    meansProduct (d :: (u.reverse ++ before)) c none = false := by
  have hword : isWordChar c = true := by
    rcases List.mem_append.mp (show c ∈ letters ++ digits by simp [h]) with hc | hc
    · exact isWordChar_of_isAsciiLetter (hl c hc)
    · exact isWordChar_of_isAsciiDigit (hd c hc)
  have hopen : c ≠ '(' := by
    rintro rfl
    revert hword
    decide
  cases hletter : isAsciiLetter c with
  | false => exact meansProduct_mark hletter hopen
  | true =>
    -- in front of a letter of the name stand only letters
    refine meansProduct_letter (fun e he => ?_) hopen
    obtain rfl := Option.some.inj he
    rcases append_eq_append_pair h with ⟨w, rfl, -⟩ | ⟨-, rfl⟩ | ⟨w, -, rfl⟩
    · exact hl d (by simp)
    · have := hd c (List.mem_cons_self ..)
      rw [isAsciiDigit_of_isAsciiLetter hletter] at this
      cases this
    · have := hd c (by simp)
      rw [isAsciiDigit_of_isAsciiLetter hletter] at this
      cases this

/-- No product is meant in front of a digit or a point. -/
theorem meansProduct_isMagnitude {chars : List Char} (h : isMagnitude chars = true) {c : Char}
    (hc : c ∈ chars) (before : List Char) : meansProduct before c none = false := by
  refine meansProduct_mark ?_ ?_
  · by_contra hletter
    rcases mem_isMagnitude h hc with hdigit | rfl
    · rw [isDigit_of_isAsciiLetter (by simpa using hletter)] at hdigit
      cases hdigit
    · revert hletter
      decide
  · rintro rfl
    exact not_mem_isMagnitude h (by decide) (by decide) hc

theorem insertProductsFrom_isMagnitude {chars : List Char} (h : isMagnitude chars = true) :
    insertProductsFrom before (chars ++ rest) =
      chars ++ insertProductsFrom (chars.reverse ++ before) rest := by
  refine insertProductsFrom_plain (fun v hv hne => ?_) fun u d v hs => ?_
  · obtain ⟨d, v, rfl⟩ := List.exists_cons_of_ne_nil hne
    exact longestMatch_of_isDigit (mem_isMagnitude h (hv.subset (by simp))) _
  · exact meansProduct_isMagnitude h (by simp [hs]) _

/-- Behind its first letter nothing is put into a name. -/
theorem insertProductsFrom_behind_letter {c : Char} {letters digits : List Char}
    (hl : ∀ d ∈ c :: letters, isAsciiLetter d = true) (hd : ∀ d ∈ digits, isAsciiDigit d = true)
    (hm : ∀ v, v <:+ letters ++ digits → v ≠ [] → Operator.longestMatch (v ++ rest) = none) :
    insertProductsFrom (c :: before) ((letters ++ digits) ++ rest) =
      (letters ++ digits) ++
        insertProductsFrom ((letters ++ digits).reverse ++ c :: before) rest := by
  refine insertProductsFrom_plain hm fun w d v hw => ?_
  rcases List.eq_nil_or_concat w with rfl | ⟨w, e, rfl⟩
  · exact meansProduct_inside_name (u := []) hl hd (by simpa using hw)
  · have := @meansProduct_inside_name before (c :: letters) digits (c :: w) v d e hl hd
      (by simpa using hw)
    simpa using this

theorem insertProductsFrom_apply (op : Unary) (before inner rest : List Char) :
    insertProductsFrom before (op.symbol ++ (Tree.inBrackets inner ++ rest)) =
      (if (Token.operator (.unary op)).isFactorBehind before then ['*'] else []) ++
        (op.symbol ++
          (Tree.inBrackets (insertProducts inner) ++ insertProductsFrom [')'] rest)) := by
  have hm : Operator.longestMatch
      ((Operator.unary op).symbol ++ (Tree.inBrackets inner ++ rest)) = some (.unary op) := by
    refine Operator.longestMatch_symbol_append fun c hc => ?_
    obtain rfl : '(' = c := by simpa [Tree.inBrackets] using hc
    exact ⟨fun _ => .inl (by decide), fun _ => by decide⟩
  have hsymbol := insertProductsFrom_of_tokens (t := .operator (.unary op)) (tokens_of_some hm)
    before
  rw [Token.text, Operator.symbol_unary, insertProductsFrom_group, meansProduct_symbol] at hsymbol
  exact hsymbol

theorem insertProductsFrom_text
    (hm : f.isName = true → ∀ v, v <:+ f.text → v ≠ [] →
      Operator.longestMatch (v ++ rest) = none) :
    insertProductsFrom before (f.text ++ rest) =
      (if f.isMeantBehind before then ['*'] else []) ++
        (f.withProducts ++ insertProductsFrom (f.behind before) rest) := by
  cases f with
  | literal chars hchars _ =>
    obtain ⟨c, s, rfl⟩ := List.exists_cons_of_ne_nil (isMagnitude_ne_nil hchars)
    rw [isMeantBehind_eq rfl, Token.isFactorBehind_character,
      meansProduct_isMagnitude hchars (by simp)]
    exact insertProductsFrom_isMagnitude hchars
  | name letters digits hne hl hd =>
    have hm := hm rfl
    obtain ⟨c, u, rfl⟩ := List.exists_cons_of_ne_nil hne
    have hfirst : Operator.longestMatch (c :: ((u ++ digits) ++ rest)) = none :=
      hm _ List.suffix_rfl (by simp [text])
    rw [isMeantBehind_eq rfl, Token.isFactorBehind_character, text, List.cons_append,
      List.cons_append, insertProductsFrom_of_none hfirst,
      insertProductsFrom_behind_letter hl hd fun v hv => hm v (hv.trans (List.suffix_cons ..))]
    simp [withProducts, behind]
  | group inner =>
    rw [isMeantBehind_eq rfl, Token.isFactorBehind_character, text, insertProductsFrom_group]
    rfl
  | apply op hop inner =>
    rw [isMeantBehind_eq rfl, text, List.append_assoc, insertProductsFrom_apply, withProducts,
      List.append_assoc]
    rfl

/-! ### Behind a factor -/

/-- A symbol that is a name begins with a letter. -/
theorem isAsciiLetter_head_of_isWord {op : Operator} (h : op.isWord = true) :
    ∀ c ∈ op.symbol.head?, isAsciiLetter c = true :=
  Operator.forall_of_byLength (p := fun op => op.isWord = true →
    ∀ c ∈ op.symbol.head?, isAsciiLetter c = true) (by decide) op h

/-- A product is meant behind the end of a factor. -/
theorem isMeantBehind_cons {d : Char} (hg : g.isLiteral = false)
    (hd : d = ')' ∨ isAsciiDigit d = true ∨
      isAsciiLetter d = true ∧ g.isName = false ∧ (backTrack (d :: before)).isNone = true) :
    g.isMeantBehind (d :: before) = true := by
  cases g with
  | literal => cases hg
  | name letters digits hne hl _ =>
    obtain ⟨c, u, rfl⟩ := List.exists_cons_of_ne_nil hne
    have hc := hl c (List.mem_cons_self ..)
    rw [isMeantBehind_eq rfl, Token.isFactorBehind_character]
    rcases hd with rfl | hd | ⟨-, hname, -⟩
    · simp [meansProduct, hc, isBinaryOperator]
    · simp [meansProduct, hc, hd, isBinaryOperator]
    · cases hname
  | group inner =>
    rw [isMeantBehind_eq rfl, Token.isFactorBehind_character]
    rcases hd with rfl | hd | ⟨hd, -, hback⟩
    · simp [meansProduct]
    · simp [meansProduct, hd]
    · simp [meansProduct, hd, hback]
  | apply op hop inner =>
    obtain ⟨c, u, hsymbol⟩ := List.exists_cons_of_ne_nil (Operator.unary op).symbol_ne_nil
    have hc := isAsciiLetter_head_of_isWord hop c (by rw [hsymbol]; rfl)
    rw [isMeantBehind_eq rfl, @Token.isFactorBehind_eq (.operator (.unary op)) c u hsymbol,
      Token.operator?]
    rcases hd with rfl | hd | ⟨hd, -, -⟩
    · simp [meansProduct, hc, isBinaryOperator, Operator.isBinary]
    · simp [meansProduct, hc, hd, isBinaryOperator, Operator.isBinary]
    · simp [meansProduct, hd, isBinaryOperator, Operator.isBinary]

theorem isMeantBehind_behind (h : MayFollow f g) (hbefore : f.isName = true → IsParted before)
    (hm : f.isName = true → ∀ v, v <:+ f.text → v ≠ [] →
      Operator.longestMatch (v ++ rest) = none) :
    g.isMeantBehind (f.behind before) = true := by
  obtain ⟨hg, hnames⟩ := h
  cases f with
  | literal chars hchars hlast =>
    obtain ⟨d, s, hs⟩ := List.exists_cons_of_ne_nil
      (List.reverse_ne_nil_iff.mpr (isMagnitude_ne_nil hchars))
    have hd : isAsciiDigit d = true := hlast d (by rw [← List.head?_reverse, hs]; rfl)
    rw [behind, hs, List.cons_append]
    exact isMeantBehind_cons hg (.inr (.inl hd))
  | name letters digits hne hl hd =>
    have hback := isNone_backTrack_of_isParted (hbefore rfl) (hm rfl)
    obtain ⟨d, s, hs⟩ := List.exists_cons_of_ne_nil
      (List.reverse_ne_nil_iff.mpr (List.append_ne_nil_of_left_ne_nil hne digits))
    have hmem : d ∈ letters ++ digits := List.mem_reverse.mp (by rw [hs]; simp)
    rw [text, hs, List.cons_append] at hback
    rw [behind, hs, List.cons_append]
    refine isMeantBehind_cons hg ?_
    rcases List.mem_append.mp hmem with hmem | hmem
    · exact .inr (.inr ⟨hl d hmem, by simpa [isName] using hnames, hback⟩)
    · exact .inr (.inl (hd d hmem))
  | group => exact isMeantBehind_cons hg (.inl rfl)
  | apply => exact isMeantBehind_cons hg (.inl rfl)

/-- What a name may stand behind keeps the symbols in front of it apart from it. -/
theorem isParted_behind (h : MayFollow f g) (hg : g.isName = true)
    (hbefore : f.isLiteral = true → before = []) : IsParted (f.behind before) := by
  cases f with
  | literal chars hchars _ =>
    rw [behind, hbefore rfl, List.append_nil]
    exact isParted_isMagnitude hchars
  | name => exact absurd ⟨rfl, hg⟩ h.2
  | group => exact isParted_bracket
  | apply => exact isParted_bracket

end Factor

/-! ### A list of factors -/

theorem insertProductsFrom_factors {f : Factor} {factors : List Factor} {before : List Char}
    (hchain : (f :: factors).IsChain Factor.MayFollow)
    (hliteral : f.isLiteral = true → before = []) (hname : f.isName = true → IsParted before)
    (htokens : tokens ((f :: factors).flatMap Factor.text) =
      (f :: factors).flatMap Factor.tokens) :
    insertProductsFrom before ((f :: factors).flatMap Factor.text) =
      (if f.isMeantBehind before then ['*'] else []) ++
        ['*'].intercalate ((f :: factors).map Factor.withProducts) := by
  induction factors generalizing f before with
  | nil =>
    rw [List.flatMap_cons, List.flatMap_cons] at htokens
    obtain ⟨hm, -⟩ := Factor.longestMatch_of_tokens htokens
    rw [List.flatMap_cons, Factor.insertProductsFrom_text hm, List.flatMap_nil, insertProductsFrom]
    simp
  | cons g factors ih =>
    rw [List.flatMap_cons, List.flatMap_cons (f := Factor.tokens)] at htokens
    obtain ⟨hm, hrest⟩ := Factor.longestMatch_of_tokens htokens
    obtain ⟨hfollow, hchain⟩ := List.isChain_cons_cons.mp hchain
    have hliteral' : g.isLiteral = true → f.behind before = [] := fun h => by
      rw [hfollow.1] at h
      cases h
    have ih := ih hchain hliteral' (fun h => Factor.isParted_behind hfollow h hliteral) hrest
    rw [Factor.isMeantBehind_behind hfollow hname hm] at ih
    rw [List.flatMap_cons, Factor.insertProductsFrom_text hm, ih, if_pos rfl, List.map_cons,
      List.map_cons, List.map_cons, List.intercalate_cons_cons, List.append_assoc]

/-- Where the longest match finds no operators outside of brackets but the functions, exactly one
`*` is put between any two factors, and products are put into each text in brackets on its own. -/
theorem insertProducts_factors (factors : List Factor) (hchain : factors.IsChain Factor.MayFollow)
    (htokens : tokens (factors.flatMap Factor.text) = factors.flatMap Factor.tokens) :
    insertProducts (factors.flatMap Factor.text) =
      ['*'].intercalate (factors.map Factor.withProducts) := by
  cases factors with
  | nil =>
    rw [List.flatMap_nil, insertProducts, insertProductsFrom]
    rfl
  | cons f factors =>
    have hstart : f.isMeantBehind [] = false := by
      cases htoken : f.tokens.head? with
      | none => simp [Factor.isMeantBehind, htoken]
      | some t => simp [Factor.isMeantBehind, htoken, Token.isFactorBehind, meansProduct]
    rw [insertProducts, insertProductsFrom_factors hchain (fun _ => rfl) (fun _ => isParted_nil)
      htokens, hstart]
    rfl

theorem insertProducts_factors_number_name_group_function :
    insertProducts ['2', 'x', '1', '(', '3', 'y', ')', 's', 'i', 'n', '(', 'z', ')'] =
      ['2', '*', 'x', '1', '*', '(', '3', '*', 'y', ')', '*', 's', 'i', 'n', '(', 'z', ')'] := by
  have h := insertProducts_factors
    [.literal ['2'] (by decide) (by decide),
      .name ['x'] ['1'] (by decide) (by decide) (by decide),
      .group ['3', 'y'], .apply .sin (by decide) ['z']]
    (by simp [Factor.MayFollow, Factor.isLiteral, Factor.isName]) (by decide +kernel)
  have hinner : insertProducts ['3', 'y'] = ['3', '*', 'y'] ∧ insertProducts ['z'] = ['z'] := by
    decide +kernel
  simp only [List.map_cons, List.map_nil, Factor.withProducts, hinner] at h
  exact h

end Reckon.Formula
