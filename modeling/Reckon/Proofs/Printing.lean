import Reckon.Proofs.Display
import Reckon.Proofs.Signs

/-!
# Formulas that are written

`Writes t p`: the formula of the tree `t` is the phrase `p`, with a sign in front of each negative
number. Once two signs in a row have become one, the text is that of the phrase `p.collapse`
(`collapsesTo_of_writes`), whose brackets are still enough and whose value is that of `t`
(`collapsed_of_writes`).
-/

namespace Reckon

namespace Formula

open Reckon.Text

/-- Small letters and then digits. -/
def IsNeat (s : List Char) : Prop :=
  ∃ letters digits : List Char, s = letters ++ digits ∧ letters ≠ [] ∧
    (∀ c ∈ letters, 'a' ≤ c ∧ c ≤ 'z') ∧ ∀ c ∈ digits, isAsciiDigit c = true

theorem isIdentifier_of_isNeat {s : List Char} (h : IsNeat s) : isIdentifier s = true := by
  obtain ⟨letters, digits, rfl, hne, hl, hd⟩ := h
  have hletter : ∀ c ∈ letters, isAsciiLetter c = true := by
    intro c hc
    rw [isAsciiLetter, Bool.or_eq_true, Bool.and_eq_true, decide_eq_true_eq, decide_eq_true_eq]
    exact .inl (hl c hc)
  obtain ⟨c, t, rfl⟩ := List.exists_cons_of_ne_nil hne
  rw [List.cons_append, isIdentifier, Bool.and_eq_true, List.all_eq_true]
  refine ⟨hletter c (List.mem_cons_self ..), fun d hd' => ?_⟩
  rw [Bool.or_eq_true]
  rcases List.mem_append.mp hd' with hd' | hd'
  · exact .inl (hletter d (List.mem_cons_of_mem c hd'))
  · exact .inr (hd d hd')

end Formula

namespace Tree

/-- Every operator but `log`, numbers that lose no digit when they are displayed, and names of small
letters and then digits. -/
def IsPrintable : Tree → Prop
  | number a => a.IsShown
  | var x => Formula.IsNeat x.toList ∧ Formula.hasOperator x.toList = false
  | unary _ a => a.IsPrintable
  | binary op a b => op ≠ .log ∧ a.IsPrintable ∧ b.IsPrintable

end Tree

namespace Formula

open Reckon.Text
open Phrase (groupedIf bracketedIf text_groupedIf wellFormed_groupedIf)

/-- The formula of the tree is the phrase. -/
inductive Writes : Tree → Phrase → Prop
  | literal {a : Decimal} {l : Literal} : (∀ c ∈ l.chars, isNumeral c = true) →
      l.value.toRat? = a.toRat? → a.less .zero = .ok false → Writes (.number a) (.literal l)
  | negative {a : Decimal} {l : Literal} : (∀ c ∈ l.chars, isNumeral c = true) →
      l.value.flip.toRat? = a.toRat? → a.less .zero = .ok true →
      Writes (.number a) (.signed .minus (.literal l))
  | name {x : Name} : IsNeat x.chars → Writes (.var (String.ofList x.chars)) (.name x)
  | apply {op : Unary} {a : Tree} {p : Phrase} : Writes a p → Writes (.unary op a) (.apply op p)
  | join {op : Binary} {a b : Tree} {p q : Phrase} {left : Bool} : op ≠ .log →
      a.bracketsLeft op = .ok left → Writes a p → Writes b q →
      Writes (.binary op a b)
        (.join op (groupedIf left p) (groupedIf (Tree.bracketsRight op a b) q))

theorem exists_writes {t : Tree} {s : List Char} (ht : t.IsPrintable) (h : t.formula = .ok s) :
    ∃ p, Writes t p ∧ p.text = s := by
  induction t generalizing s with
  | number a =>
    obtain ⟨l, hl, ⟨hs, hvalue, hless⟩ | ⟨hs, hvalue, hless⟩⟩ := Decimal.exists_literal ht
    · obtain rfl : l.chars = s := Except.ok.inj (hs.symm.trans h)
      exact ⟨_, .literal hl hvalue hless, rfl⟩
    · obtain rfl : '-' :: l.chars = s := Except.ok.inj (hs.symm.trans h)
      exact ⟨_, .negative hl hvalue hless, rfl⟩
  | var x =>
    cases h
    let name : Name := ⟨x.toList, isIdentifier_of_isNeat ht.1, ht.2⟩
    have hw : Writes (.var (String.ofList name.chars)) (.name name) := .name ht.1
    exact ⟨.name name, by rwa [String.ofList_toList] at hw, rfl⟩
  | unary op a ih =>
    obtain ⟨u, hu, h⟩ := bind_eq_ok_iff.mp h
    cases h
    obtain ⟨p, hp, rfl⟩ := ih ht hu
    exact ⟨_, .apply hp, rfl⟩
  | binary op a b iha ihb =>
    obtain ⟨u, hu, h⟩ := bind_eq_ok_iff.mp h
    obtain ⟨left, hleft, h⟩ := bind_eq_ok_iff.mp h
    obtain ⟨v, hv, h⟩ := bind_eq_ok_iff.mp h
    cases h
    obtain ⟨p, hp, rfl⟩ := iha ht.2.1 hu
    obtain ⟨q, hq, rfl⟩ := ihb ht.2.2 hv
    refine ⟨_, .join ht.1 (mapError_eq_ok_iff.mp hleft) hp hq, ?_⟩
    rw [Phrase.text, text_groupedIf, text_groupedIf, ← List.append_assoc]
    rfl

/-! ### Brackets and values -/

/-- What holds of the phrase of a tree once signs have been collapsed. -/
structure Collapsed (t : Tree) (p : Phrase) : Prop where
  wellFormed : p.WellFormed
  value : ∀ I ρ, p.value I ρ = t.exact I ρ
  isSimple : t.isBinary = false → p.isSimple = true
  outerRank : ∀ op a b, t = .binary op a b → op.rank ≤ 6 → p.outerRank ≤ 6
  rank : ∀ op a b, t = .binary op a b → op.rank < 6 → p.rank < 6
  isProduct : ∀ op a b, t = .binary op a b → op = .times ∨ op = .power → p.isProduct = true

theorem collapse_groupedIf (brackets : Bool) (p : Phrase) :
    (groupedIf brackets p).collapse = groupedIf brackets p.collapse := by
  cases brackets with
  | true => rfl
  | false => rfl

theorem value_groupedIf (I : Interpretation) (ρ : String → ℚ) (brackets : Bool) (p : Phrase) :
    (groupedIf brackets p).value I ρ = p.value I ρ := by
  cases brackets with
  | true => rfl
  | false => rfl

theorem isSimple_groupedIf {brackets : Bool} {p : Phrase}
    (h : brackets = false → p.isSimple = true) : (groupedIf brackets p).isSimple = true := by
  cases brackets with
  | true => rfl
  | false => exact h rfl

namespace Collapsed
variable {op : Binary} {a b : Tree} {p q : Phrase} {left : Bool}

/-- An operand that is no operation, or has brackets around it. -/
theorem isSimple_groupedIf {brackets : Bool} (h : Collapsed a p)
    (hb : a.isBinary = true → brackets = true) : (groupedIf brackets p).isSimple = true := by
  refine Formula.isSimple_groupedIf fun hbrackets => h.isSimple ?_
  cases hbinary : a.isBinary with
  | false => rfl
  | true =>
    rw [hb hbinary] at hbrackets
    cases hbrackets

theorem outerRank_groupedIf {brackets : Bool} (h : Collapsed a p)
    (hb : ∀ op x y, a = .binary op x y → brackets = false → op.rank ≤ 6) :
    (groupedIf brackets p).outerRank ≤ 6 := by
  cases brackets with
  | true => exact Nat.zero_le 6
  | false =>
    cases a with
    | binary op x y => exact h.outerRank op x y rfl (hb op x y rfl rfl)
    | number | var | unary => exact Phrase.outerRank_of_isSimple h.wellFormed (h.isSimple rfl)

theorem rank_groupedIf {brackets : Bool} (h : Collapsed a p)
    (hb : ∀ op x y, a = .binary op x y → brackets = false → op.rank < 6) :
    (groupedIf brackets p).rank < 6 := by
  have hsimple : p.isSimple = true → p.rank < 6 := fun h => by
    rw [Phrase.rank_of_isSimple h]
    decide
  cases brackets with
  | true => exact Nat.zero_lt_succ 5
  | false =>
    cases a with
    | binary op x y => exact h.rank op x y rfl (hb op x y rfl rfl)
    | number | var | unary => exact hsimple (h.isSimple rfl)

theorem isProduct_groupedIf {brackets : Bool} (h : Collapsed a p)
    (hb : ∀ op x y, a = .binary op x y → brackets = false → op = .times ∨ op = .power) :
    (groupedIf brackets p).isProduct = true := by
  cases brackets with
  | true => rfl
  | false =>
    cases a with
    | binary op x y => exact h.isProduct op x y rfl (hb op x y rfl rfl)
    | number | var | unary => exact Phrase.isProduct_of_isSimple (h.isSimple rfl)

/-- The right operand of a sign. -/
theorem outerRank_right (hop : op.isSign = true) (hb : Collapsed b q) :
    (groupedIf (Tree.bracketsRight op a b) q).outerRank ≤ 6 := by
  refine hb.outerRank_groupedIf ?_
  rintro inner x y rfl hright
  cases op with
  | plus =>
    rw [Tree.bracketsRight, Tree.isLooser, decide_eq_false_iff_not] at hright
    exact Nat.le_of_not_lt hright
  | minus => cases inner <;> first | decide | cases hright
  | _ => cases hop

variable (hleft : a.bracketsLeft op = .ok left)
include hleft

theorem add (hop : op.isSign = true) (ha : Collapsed a p) (hb : Collapsed b q) :
    Collapsed (.binary op a b)
      (Phrase.add op (groupedIf left p) (groupedIf (Tree.bracketsRight op a b) q)) := by
  have hP : (groupedIf left p).outerRank ≤ 6 := by
    refine ha.outerRank_groupedIf ?_
    rintro inner x y rfl rfl
    have hlooser := Except.ok.inj hleft
    rw [hop, Bool.not_true, Bool.false_or, Tree.isLooser, decide_eq_false_iff_not,
      Phrase.rank_of_isSign hop] at hlooser
    omega
  have hQ := outerRank_right (a := a) hop hb
  have hminus : op = .minus → (groupedIf (Tree.bracketsRight op a b) q).rank < 6 := by
    rintro rfl
    refine hb.rank_groupedIf ?_
    rintro inner x y rfl hright
    cases inner <;> first | decide | cases hright
  have hwfQ : (groupedIf (Tree.bracketsRight op a b) q).WellFormed :=
    wellFormed_groupedIf hb.wellFormed
  obtain ⟨hwf, houter, hvalue⟩ := Phrase.add_spec hop (wellFormed_groupedIf ha.wellFormed) hP hwfQ
    ((Phrase.rank_le_outerRank hwfQ).trans hQ) hminus
  refine ⟨hwf, fun I ρ => ?_, (fun h => by cases h), fun _ _ _ _ _ => houter.le, ?_, ?_⟩
  · rw [hvalue, value_groupedIf, value_groupedIf, ha.value, hb.value]
    rfl
  · rintro _ _ _ ⟨⟩ hrank
    rw [Phrase.rank_of_isSign hop] at hrank
    exact absurd hrank (by decide)
  · rintro _ _ _ ⟨⟩ (rfl | rfl) <;> cases hop

theorem isSimple_left (hop : op.isSign = false) (ha : Collapsed a p) :
    (groupedIf left p).isSimple = true := by
  refine ha.isSimple_groupedIf fun hbinary => ?_
  cases a with
  | binary inner x y =>
    have := Except.ok.inj hleft
    rw [hop] at this
    exact this.symm
  | number | var | unary => cases hbinary

theorem outward (hop : op.rank = 4) (ha : Collapsed a p) (hb : Collapsed b q) :
    Collapsed (.binary op a b)
      (Phrase.outward op (groupedIf left p) (groupedIf (Tree.bracketsRight op a b) q)) := by
  have hsign : op.isSign = false := by
    cases op <;> first | rfl | cases hop
  have hproduct : (groupedIf (Tree.bracketsRight op a b) q).isProduct = true := by
    refine hb.isProduct_groupedIf ?_
    rintro inner x y rfl hright
    cases op with
    | times =>
      rw [Tree.bracketsRight, Bool.or_eq_false_iff] at hright
      cases inner <;> first | exact .inl rfl | exact .inr rfl | cases hright.2
    | div | modulo => cases hright
    | _ => cases hop
  have hrank : op ≠ .times → (groupedIf (Tree.bracketsRight op a b) q).rank < 4 := by
    intro htimes
    rw [Phrase.rank_of_isSimple]
    · decide
    refine hb.isSimple_groupedIf fun hbinary => ?_
    cases b with
    | binary inner x y =>
      cases op with
      | times => exact absurd rfl htimes
      | div | modulo => rfl
      | _ => cases hop
    | number | var | unary => cases hbinary
  obtain ⟨hwf, hrank, houter, hfactors, hvalue⟩ := Phrase.outward_spec hop
    (wellFormed_groupedIf ha.wellFormed) (isSimple_left hleft hsign ha)
    (wellFormed_groupedIf hb.wellFormed) hproduct hrank
  refine ⟨hwf, fun I ρ => ?_, (fun h => by cases h), fun _ _ _ _ _ => houter,
    fun _ _ _ _ _ => Nat.lt_of_le_of_lt hrank (Nat.lt_add_of_pos_right Nat.two_pos), ?_⟩
  · rw [hvalue, value_groupedIf, value_groupedIf, ha.value, hb.value]
    rfl
  · rintro _ _ _ ⟨⟩ (h | rfl)
    · exact hfactors h
    · cases hop

/-- The base of a power has brackets if it begins with a sign. -/
theorem isOperand_left (h : Writes a p) (hop : op = .power) :
    (groupedIf left p.collapse).isOperand = true := by
  subst hop
  cases h with
  | literal | name | apply =>
    cases left <;> rfl
  | negative _ _ hless =>
    have hleft : Decimal.less _ .zero = .ok left := hleft
    obtain rfl : true = left := Except.ok.inj (hless.symm.trans hleft)
    rfl
  | join =>
    obtain rfl : true = left := Except.ok.inj hleft
    rfl

theorem power (hop : op = .power) (h : Writes a p) (ha : Collapsed a p.collapse)
    (hb : Collapsed b q) :
    Collapsed (.binary op a b)
      (.join op (groupedIf left p.collapse) (groupedIf (Tree.bracketsRight op a b) q)) := by
  have hoperand := isOperand_left hleft h hop
  subst hop
  have hrank : (groupedIf (Tree.bracketsRight .power a b) q).rank < 3 := by
    rw [Phrase.rank_of_isSimple (hb.isSimple_groupedIf fun hbinary => ?_)]
    · decide
    · cases b with
      | binary => rfl
      | number | var | unary => cases hbinary
  refine ⟨.join (wellFormed_groupedIf ha.wellFormed) (wellFormed_groupedIf hb.wellFormed) ?_ hrank
    (fun h => by cases h), fun I ρ => ?_, (fun h => by cases h), fun _ _ _ _ _ => ?_,
    fun _ _ _ _ _ => ?_, fun _ _ _ _ _ => rfl⟩
  · rw [Phrase.outerRank_of_isOperand hoperand]
    exact Nat.zero_le 3
  · rw [Phrase.value_join (wellFormed_groupedIf ha.wellFormed), value_groupedIf, value_groupedIf,
      ha.value, hb.value]
    rfl
  · rw [Phrase.outerRank]
    decide
  · rw [Phrase.rank]
    decide

/-- The operators that are looser than sums. -/
theorem loose (hop : 6 < op.rank) (ha : Collapsed a p) (hb : Collapsed b q) :
    Collapsed (.binary op a b)
      (.join op (groupedIf left p) (groupedIf (Tree.bracketsRight op a b) q)) := by
  have hsign : op.isSign = false := by
    cases op <;> first | rfl | exact absurd hop (by decide)
  have hleft : (groupedIf left p).outerRank ≤ 6 :=
    Phrase.outerRank_of_isSimple (wellFormed_groupedIf ha.wellFormed) (isSimple_left hleft hsign ha)
  have hright : (groupedIf (Tree.bracketsRight op a b) q).rank = 0 := by
    refine Phrase.rank_of_isSimple (hb.isSimple_groupedIf fun hbinary => ?_)
    cases b with
    | binary => cases op <;> first | rfl | exact absurd hop (by decide)
    | number | var | unary => cases hbinary
  refine ⟨.join (wellFormed_groupedIf ha.wellFormed) (wellFormed_groupedIf hb.wellFormed)
    (hleft.trans hop.le) ?_ ?_, fun I ρ => ?_, (fun h => by cases h), ?_, ?_, ?_⟩
  · rw [hright]
    omega
  · rintro rfl
    exact absurd hop (by decide)
  · rw [Phrase.value_join (wellFormed_groupedIf ha.wellFormed), value_groupedIf, value_groupedIf,
      ha.value, hb.value]
    rfl
  · rintro _ _ _ ⟨⟩ hrank
    omega
  · rintro _ _ _ ⟨⟩ hrank
    omega
  · rintro _ _ _ ⟨⟩ (rfl | rfl)
    · exact absurd hop (by decide)
    · exact absurd hop (by decide)

end Collapsed

theorem collapsed_of_writes {t : Tree} {p : Phrase} (h : Writes t p) : Collapsed t p.collapse := by
  induction h with
  | literal _ hvalue _ =>
    exact ⟨.literal _, fun I ρ => hvalue, fun _ => rfl, nofun, nofun, nofun⟩
  | negative _ hvalue _ =>
    refine ⟨.signed rfl (.literal _) (Nat.zero_lt_succ 5), fun I ρ => ?_, fun _ => rfl, nofun,
      nofun, nofun⟩
    exact hvalue
  | name => exact ⟨.name _, fun I ρ => rfl, fun _ => rfl, nofun, nofun, nofun⟩
  | @apply op a p _ ih =>
    refine ⟨.apply ih.wellFormed, fun I ρ => ?_, fun _ => rfl, nofun, nofun, nofun⟩
    exact congrArg (· >>= op.exact I) (ih.value I ρ)
  | @join op a b p q left hlog hleft hp _ iha ihb =>
    rw [Phrase.collapse, collapse_groupedIf, collapse_groupedIf]
    split
    · exact .add hleft ‹_› iha ihb
    split
    · exact .outward hleft ‹_› iha ihb
    · rename_i hsign hrank
      by_cases hop : op = .power
      · exact .power hleft hop hp iha ihb
      · refine .loose hleft ?_ iha ihb
        cases op <;> first | decide | contradiction

/-! ### Texts -/

/-- Making one sign of two turns the text of `p` into that of `q`, also behind another sign. -/
structure CollapsesTo (p q : Phrase) : Prop where
  text : ∀ s, collapseSigns (p.text ++ s) = q.text ++ collapseSigns s
  textAfter : ∀ op s, op.isSign = true →
    collapseSigns (op.symbol ++ (p.text ++ s)) = q.textAfter op ++ collapseSigns s

theorem collapseSigns_sign_append {op : Binary} (hop : op.isSign = true) {u : List Char}
    (hne : u ≠ []) (hu : ∀ c ∈ u.head?, isSignChar c = false) (s : List Char) :
    collapseSigns (op.symbol ++ (u ++ s)) = op.symbol ++ collapseSigns (u ++ s) := by
  obtain ⟨c, t, rfl⟩ := List.exists_cons_of_ne_nil hne
  exact collapseSigns_sign hop (hu c rfl) (t ++ s)

theorem isSignChar_of_mem_symbol (op : Operator) (hop : op ≠ .binary .plus ∧ op ≠ .binary .minus) :
    ∀ c ∈ op.symbol, isSignChar c = false := by
  revert hop
  refine Operator.forall_of_byLength (p := fun op => op ≠ .binary .plus ∧ op ≠ .binary .minus →
    ∀ c ∈ op.symbol, isSignChar c = false) ?_ op
  decide

namespace CollapsesTo
variable {p q p' q' : Phrase} {op : Binary}

/-- A text without signs stays as it is. -/
theorem of_forall (hne : p.text ≠ []) (h : ∀ c ∈ p.text, isSignChar c = false)
    (hafter : ∀ op, p.textAfter op = op.symbol ++ p.text) : CollapsesTo p p where
  text := collapseSigns_append h
  textAfter op s hop := by
    have hhead : ∀ c ∈ p.text.head?, isSignChar c = false := fun c hc => h c (List.mem_of_head? hc)
    rw [collapseSigns_sign_append hop hne hhead, collapseSigns_append h, hafter, List.append_assoc]

theorem negative {l : Literal} (h : ∀ c ∈ l.chars, isSignChar c = false) :
    CollapsesTo (.signed .minus (.literal l)) (.signed .minus (.literal l)) where
  text s := by
    have hne := isMagnitude_ne_nil l.isMagnitude
    have hhead : ∀ c ∈ l.chars.head?, isSignChar c = false := fun c hc => h c (List.mem_of_head? hc)
    rw [Phrase.text, Phrase.text, List.append_assoc, collapseSigns_sign_append rfl hne hhead,
      collapseSigns_append h, List.append_assoc]
  textAfter op s hop := by
    rw [Phrase.text, Phrase.text, List.append_assoc, collapseSigns_signs hop rfl,
      collapseSigns_append h, Phrase.textAfter, Phrase.text, List.append_assoc]

/-- Brackets with something without signs in front. -/
theorem text_inBrackets (h : CollapsesTo p q) {u : List Char} (hu : ∀ c ∈ u, isSignChar c = false)
    (s : List Char) :
    collapseSigns (u ++ Tree.inBrackets p.text ++ s) =
      u ++ Tree.inBrackets q.text ++ collapseSigns s := by
  have hopen : isSignChar '(' = false := by decide
  have hclose : isSignChar ')' = false := by decide
  have hshape : ∀ v w : List Char,
      u ++ Tree.inBrackets v ++ w = u ++ '(' :: (v ++ ')' :: w) := by
    simp [Tree.inBrackets]
  rw [hshape, hshape, collapseSigns_append hu, collapseSigns_cons hopen, h.text,
    collapseSigns_cons hclose]

theorem group (h : CollapsesTo p q) : CollapsesTo (.group p) (.group q) where
  text s := h.text_inBrackets (u := []) (by simp) s
  textAfter op s hop := by
    rw [collapseSigns_sign_append hop (by simp [Phrase.text, Tree.inBrackets])]
    · have := h.text_inBrackets (u := []) (by simp) s
      rw [List.nil_append, List.nil_append] at this
      rw [Phrase.text, this, ← List.append_assoc]
      rfl
    · intro c hc
      cases hc
      decide

theorem groupedIf {brackets : Bool} (h : CollapsesTo p q) :
    CollapsesTo (groupedIf brackets p) (groupedIf brackets q) := by
  cases brackets with
  | true => exact h.group
  | false => exact h

theorem apply {op : Unary} (h : CollapsesTo p q) : CollapsesTo (.apply op p) (.apply op q) := by
  have hsymbol : ∀ c ∈ op.symbol, isSignChar c = false :=
    isSignChar_of_mem_symbol (.unary op) (by simp)
  have hne : op.symbol ≠ [] := (Operator.unary op).symbol_ne_nil
  refine ⟨h.text_inBrackets hsymbol, fun o s ho => ?_⟩
  have hhead : ∀ c ∈ (op.symbol ++ Tree.inBrackets p.text).head?, isSignChar c = false := by
    intro c hc
    rw [List.head?_append_of_ne_nil _ hne] at hc
    exact hsymbol c (List.mem_of_head? hc)
  rw [Phrase.text, collapseSigns_sign_append ho (List.append_ne_nil_of_left_ne_nil hne _) hhead,
    h.text_inBrackets hsymbol, ← List.append_assoc]
  rfl

/-- If `w` is what becomes of the operator and the right operand, it is written behind the left
one. -/
theorem join {c : Phrase} {w : List Char} (hp : CollapsesTo p p')
    (hright : ∀ s, collapseSigns (op.symbol ++ (q.text ++ s)) = w ++ collapseSigns s)
    (hc : ∀ f : Phrase → List Char, Phrase.IsWriting f → f c = f p' ++ w) :
    CollapsesTo (.join op p q) c where
  text s := by
    rw [Phrase.text, List.append_assoc, List.append_assoc, hp.text, hright,
      hc _ Phrase.isWriting_text, List.append_assoc]
  textAfter o s ho := by
    rw [Phrase.text, List.append_assoc, List.append_assoc, hp.textAfter o _ ho, hright,
      hc _ (Phrase.isWriting_textAfter o), List.append_assoc]

end CollapsesTo

theorem isSignChar_of_isNumeral {c : Char} (h : isNumeral c = true) : isSignChar c = false := by
  rw [isSignChar, Bool.or_eq_false_iff, decide_eq_false_iff_not, decide_eq_false_iff_not]
  refine ⟨?_, ?_⟩ <;> rintro rfl <;> revert h <;> decide

theorem isSignChar_of_isWordChar {c : Char} (h : isWordChar c = true) : isSignChar c = false := by
  rw [isSignChar, Bool.or_eq_false_iff, decide_eq_false_iff_not, decide_eq_false_iff_not]
  refine ⟨?_, ?_⟩ <;> rintro rfl <;> revert h <;> decide

theorem collapsesTo_of_writes {t : Tree} {p : Phrase} (h : Writes t p) :
    CollapsesTo p p.collapse := by
  induction h with
  | @literal a l hl _ _ =>
    refine .of_forall (isMagnitude_ne_nil l.isMagnitude) (fun c hc => ?_) fun _ => rfl
    exact isSignChar_of_isNumeral (hl c hc)
  | negative hl _ _ => exact .negative fun c hc => isSignChar_of_isNumeral (hl c hc)
  | @name x hx =>
    refine .of_forall (Phrase.text_ne_nil (.name x)) (fun c hc => ?_) fun _ => rfl
    exact isSignChar_of_isWordChar (mem_isIdentifier x.isIdentifier hc)
  | apply _ ih => exact ih.apply
  | @join op a b p q left hlog hleft hp hq iha ihb =>
    rw [Phrase.collapse, collapse_groupedIf, collapse_groupedIf]
    have hright : CollapsesTo (groupedIf (Tree.bracketsRight op a b) q)
        (groupedIf (Tree.bracketsRight op a b) q.collapse) := ihb.groupedIf
    have hmark : op.isSign = false → ∀ s, collapseSigns (op.symbol ++
        ((groupedIf (Tree.bracketsRight op a b) q).text ++ s)) =
        op.symbol ++ (groupedIf (Tree.bracketsRight op a b) q.collapse).text ++
          collapseSigns s := by
      intro hop s
      have hsymbol : ∀ c ∈ op.symbol, isSignChar c = false :=
        isSignChar_of_mem_symbol (.binary op) (by cases op <;> first | decide | cases hop)
      rw [collapseSigns_append hsymbol, hright.text, List.append_assoc]
    split
    · rename_i hop
      have hq' := collapsed_of_writes hq
      have hwf : (groupedIf (Tree.bracketsRight op a b) q.collapse).WellFormed :=
        wellFormed_groupedIf hq'.wellFormed
      have hrank := Collapsed.outerRank_right (a := a) hop hq'
      refine iha.groupedIf.join (fun s => hright.textAfter op s hop) fun f hf => ?_
      exact hf.add op _ hwf ((Phrase.rank_le_outerRank hwf).trans hrank)
    split
    · rename_i hop _
      exact iha.groupedIf.join (hmark (by simpa using hop)) fun f hf => hf.outward op _ _
    · rename_i hop _
      exact iha.groupedIf.join (hmark (by simpa using hop)) fun f hf => hf.join ..

end Formula

end Reckon
