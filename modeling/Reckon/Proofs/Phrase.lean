import Reckon.Proofs.Brackets
import Reckon.Proofs.Numerals

/-!
# Phrases

A phrase is a formula as it is written: every pair of brackets is a node of its own, a number has
its digits, and a sign may stand in front of a phrase. `Phrase.WellFormed` says that the brackets
are enough for the ranks of the operators; `Phrase.tree` is what such a text means.
-/

namespace Reckon.Formula

open Reckon.Text

/-- A number without a sign, as it is written. -/
structure Literal where
  chars : List Char
  value : Decimal
  isMagnitude : Formula.isMagnitude chars = true
  ofText?_eq : Decimal.ofText? chars = some value

/-- The name of a variable. -/
structure Name where
  chars : List Char
  isIdentifier : Formula.isIdentifier chars = true
  hasOperator : Formula.hasOperator chars = false

inductive Phrase where
  | literal (l : Literal)
  | name (x : Name)
  | group (p : Phrase)
  | apply (op : Unary) (p : Phrase)
  | signed (op : Binary) (p : Phrase)
  | join (op : Binary) (l r : Phrase)

/-- The number that a sign makes of `a`. -/
def signedValue (op : Binary) (a : Decimal) : Decimal :=
  if op = .minus then a.flip else a

namespace Phrase

def text : Phrase → List Char
  | literal l => l.chars
  | name x => x.chars
  | group p => Tree.inBrackets p.text
  | apply op p => op.symbol ++ Tree.inBrackets p.text
  | signed op p => op.symbol ++ p.text
  | join op l r => l.text ++ (op.symbol ++ r.text)

/-- The tree of a phrase that stands `alone`, or is followed by an operator. A number with a sign is
a number only in the first case. -/
def treeAs (alone : Bool) : Phrase → Tree
  | literal l => .number l.value
  | name x => .var (String.ofList x.chars)
  | group p => p.treeAs true
  | apply op p => .unary op (p.treeAs true)
  | signed op (literal l) =>
    if alone then .number (signedValue op l.value) else .binary op .zero (.number l.value)
  | signed op p => .binary op .zero (p.treeAs true)
  | join op l r => .binary op (l.treeAs false) (r.treeAs true)

def tree (p : Phrase) : Tree :=
  p.treeAs true

/-- Phrases that end with a bracket of their own. -/
def isClosed : Phrase → Bool
  | group _ | apply .. => true
  | _ => false

/-- Phrases that begin with no operator and are read as a whole. -/
def isAtom : Phrase → Bool
  | literal _ | name _ | group _ => true
  | _ => false

/-- The loosest operator between the operands of a phrase, by its rank; a sign in front does not
count. -/
def rank : Phrase → Nat
  | signed _ p => p.rank
  | join op _ _ => op.rank
  | _ => 0

/-- The operator that was read last before the end of the phrase, by its rank. -/
def outerRank : Phrase → Nat
  | signed op _ | join op _ _ => op.rank
  | _ => 0

/-- How deep the text is nested for the reader, whose operands lie one level below their chain; the
operand that begins a chain does if it begins with no operator. -/
def levels : Phrase → Nat
  | literal _ | name _ => 0
  | group p | signed _ p => p.levels + 1
  | apply _ p => p.levels + 2
  | join _ l r => max (if l.isAtom then l.levels + 1 else l.levels) (r.levels + 1)

/-- Whether the last characters are those of a name. -/
def endsInName : Phrase → Bool
  | name _ => true
  | signed _ p => p.endsInName
  | join _ _ r => r.endsInName
  | _ => false

/-- The brackets are enough. The operands of `log` have brackets of their own since its symbol could
grow together with a name. -/
inductive WellFormed : Phrase → Prop
  | literal (l : Literal) : WellFormed (literal l)
  | name (x : Name) : WellFormed (name x)
  | group {p : Phrase} : WellFormed p → WellFormed (group p)
  | apply {op : Unary} {p : Phrase} : WellFormed p → WellFormed (apply op p)
  | signed {op : Binary} {p : Phrase} :
      op.isSign = true → WellFormed p → p.rank < op.rank → WellFormed (signed op p)
  | join {op : Binary} {l r : Phrase} :
      WellFormed l → WellFormed r → l.outerRank ≤ op.rank → r.rank < op.rank →
      (op = .log → l.isClosed = true ∧ r.isClosed = true) → WellFormed (join op l r)

/-! ### Brackets where they are asked for -/

def bracketedIf (brackets : Bool) (s : List Char) : List Char :=
  if brackets then Tree.inBrackets s else s

def groupedIf (brackets : Bool) (p : Phrase) : Phrase :=
  if brackets then .group p else p

theorem text_groupedIf (brackets : Bool) (p : Phrase) :
    (groupedIf brackets p).text = bracketedIf brackets p.text := by
  cases brackets with
  | true => rfl
  | false => rfl

theorem wellFormed_groupedIf {brackets : Bool} {p : Phrase} (h : p.WellFormed) :
    (groupedIf brackets p).WellFormed := by
  cases brackets with
  | true => exact .group h
  | false => exact h

/-! ### Ranks -/

theorem rank_le_outerRank {p : Phrase} (h : p.WellFormed) : p.rank ≤ p.outerRank := by
  cases h with
  | literal | name | group | apply => exact Nat.le_refl _
  | signed _ _ h => exact h.le
  | join => exact Nat.le_refl _

theorem endsInName_of_isClosed {p : Phrase} (h : p.isClosed = true) : p.endsInName = false := by
  cases p with
  | group | apply => rfl
  | literal | name | signed | join => cases h

/-! ### The first and the last characters -/

theorem text_ne_nil {p : Phrase} (h : p.WellFormed) : p.text ≠ [] := by
  cases h with
  | literal l => exact isMagnitude_ne_nil l.isMagnitude
  | name x =>
    intro hnil
    have hid := x.isIdentifier
    rw [show x.chars = [] from hnil] at hid
    cases hid
  | group => exact List.cons_ne_nil _ _
  | @apply op _ _ => exact List.append_ne_nil_of_left_ne_nil (Operator.unary op).symbol_ne_nil _
  | @signed op _ _ _ _ =>
    exact List.append_ne_nil_of_left_ne_nil (Operator.binary op).symbol_ne_nil _
  | @join op _ _ _ _ _ _ _ =>
    refine List.append_ne_nil_of_right_ne_nil _ ?_
    exact List.append_ne_nil_of_left_ne_nil (Operator.binary op).symbol_ne_nil _

theorem nested_text {p : Phrase} (h : p.WellFormed) : Nested p.text := by
  induction h with
  | literal l =>
    exact .of_forall (isBracket_of_isNumber (isNumber_of_isMagnitude l.isMagnitude))
  | name x =>
    refine .of_forall fun c hc => ?_
    exact isBracket_of_isWordChar (mem_isIdentifier x.isIdentifier hc)
  | group _ ih => exact ih.inBrackets
  | @apply op _ _ ih =>
    exact (Nested.of_forall (isBracket_of_mem_symbol (.unary op))).append ih.inBrackets
  | @signed op _ _ _ _ ih =>
    exact (Nested.of_forall (isBracket_of_mem_symbol (.binary op))).append ih
  | @join op _ _ _ _ _ _ _ ih ih' =>
    exact ih.append ((Nested.of_forall (isBracket_of_mem_symbol (.binary op))).append ih')

/-- No phrase begins with a mark that would make another mark of the mark in front of it. -/
theorem head_text_not_mem {p : Phrase} (h : p.WellFormed) (s : List Char) :
    ∀ c ∈ (p.text ++ s).head?, c ∉ ['=', '|', '&'] := by
  induction h generalizing s with
  | literal l =>
    rintro c hc hmark
    obtain ⟨d, t, heq⟩ := List.exists_cons_of_ne_nil (isMagnitude_ne_nil l.isMagnitude)
    rw [text, heq] at hc
    obtain rfl : d = c := by simpa using hc
    have hdigits : ∀ c ∈ ['=', '|', '&'], isDigit c = false ∧ c ≠ '.' := by decide
    refine not_mem_isMagnitude l.isMagnitude (hdigits d hmark).1 (hdigits d hmark).2 ?_
    rw [heq]
    exact List.mem_cons_self ..
  | name x =>
    rintro c hc hmark
    have hne := text_ne_nil (.name x)
    obtain ⟨d, t, heq⟩ := List.exists_cons_of_ne_nil hne
    rw [heq] at hc
    obtain rfl : d = c := by simpa using hc
    have hword := mem_isIdentifier x.isIdentifier (c := d) (by
      rw [show x.chars = _ from heq]; simp)
    have hmarks : ∀ c ∈ ['=', '|', '&'], isWordChar c = false := by decide
    rw [hmarks d hmark] at hword
    cases hword
  | group =>
    rintro c hc
    obtain rfl : '(' = c := by simpa [text, Tree.inBrackets] using hc
    decide
  | @apply op _ _ _ =>
    have hsymbol : ∀ c ∈ op.symbol.head?, c ∉ ['=', '|', '&'] := by
      cases op <;> decide
    rw [text, List.append_assoc, ← Operator.symbol_unary, Operator.head?_symbol_append]
    exact hsymbol
  | @signed op _ hop _ _ _ =>
    have hsymbol : ∀ c ∈ op.symbol.head?, c ∉ ['=', '|', '&'] := by
      cases op <;> first | decide | cases hop
    rw [text, List.append_assoc, ← Operator.symbol_binary, Operator.head?_symbol_append]
    exact hsymbol
  | join _ _ _ _ _ ih _ =>
    rw [text, List.append_assoc]
    exact ih _

theorem head_text_ne {p : Phrase} (h : p.WellFormed) (s : List Char) :
    ∀ c ∈ (p.text ++ s).head?, c ≠ '=' := by
  rintro c hc rfl
  exact head_text_not_mem h s '=' hc (by decide)

theorem getLast?_text_of_isClosed {p : Phrase} (h : p.isClosed = true) :
    p.text.getLast? = some ')' := by
  cases p with
  | group p => exact List.getLast?_concat
  | apply op p =>
    rw [text, Tree.inBrackets, ← List.append_assoc]
    exact List.getLast?_concat
  | literal | name | signed | join => cases h

/-- The last character of a symbol is in it. -/
theorem not_symbol_suffix_of_getLast? {b : Binary} {s : List Char} {d : Char}
    (h : s.getLast? = some d) (hd : d ∉ b.symbol) : ¬ b.symbol <:+ s := by
  rintro ⟨u, rfl⟩
  have hne : b.symbol ≠ [] := (Operator.binary b).symbol_ne_nil
  rw [List.getLast?_append_of_ne_nil _ hne] at h
  exact hd (List.mem_of_getLast? h)

theorem not_symbol_suffix_of_isMagnitude {s : List Char} (h : isMagnitude s = true) (b : Binary)
    (before : List Char) : ¬ b.symbol <:+ before ++ s := by
  have hne := isMagnitude_ne_nil h
  have hlast : (before ++ s).getLast? = some (s.getLast hne) := by
    rw [List.getLast?_append_of_ne_nil _ hne, List.getLast?_eq_some_getLast hne]
  refine not_symbol_suffix_of_getLast? hlast ?_
  intro hmem
  rcases mem_isMagnitude h (List.getLast_mem hne) with hd | hd
  · have hmarks : ∀ c ∈ b.symbol, isDigit c = false := by
      cases b <;> decide
    rw [hmarks _ hmem] at hd
    cases hd
  · rw [hd] at hmem
    exact (Operator.binary b).not_mem_symbol (by decide) hmem

/-- A name is too long for the symbol of `log`, or the symbol would begin in front of it. -/
theorem not_symbol_suffix_of_isIdentifier {s : List Char} (hid : isIdentifier s = true)
    (hop : hasOperator s = false) (b : Binary) {before : List Char}
    (hbefore : ∀ c ∈ before.getLast?, isWordChar c = false) : ¬ b.symbol <:+ before ++ s := by
  intro h
  have hne : s ≠ [] := by
    rintro rfl
    cases hid
  have hlast : ∃ c ∈ s.getLast?, isWordChar c = true :=
    ⟨s.getLast hne, List.getLast?_eq_some_getLast hne, mem_isIdentifier hid (List.getLast_mem hne)⟩
  have hsuffix := @Operator.symbol_suffix_of_append (.binary b) before s hlast hbefore h
  rw [hasOperator_of_contains hsuffix.isInfix] at hop
  cases hop

/-- No binary operator ends a phrase, not even together with marks in front of it. -/
theorem not_symbol_suffix_text {p : Phrase} (h : p.WellFormed) (b : Binary) {before : List Char}
    (hbefore : ∀ c ∈ before.getLast?, isWordChar c = false) :
    ¬ b.symbol <:+ before ++ p.text := by
  have hbracket : ∀ {q : Phrase} (u : List Char), q.isClosed = true →
      ¬ b.symbol <:+ u ++ q.text := by
    intro q u hq
    have hlast := getLast?_text_of_isClosed hq
    have hne : q.text ≠ [] := by
      intro hnil
      rw [hnil] at hlast
      cases hlast
    refine not_symbol_suffix_of_getLast? (d := ')') ?_ ?_
    · rw [List.getLast?_append_of_ne_nil _ hne, hlast]
    · exact (Operator.binary b).not_mem_symbol (by decide)
  induction h generalizing before with
  | literal l => exact not_symbol_suffix_of_isMagnitude l.isMagnitude b before
  | name x => exact not_symbol_suffix_of_isIdentifier x.isIdentifier x.hasOperator b hbefore
  | group => exact hbracket before rfl
  | apply => exact hbracket before rfl
  | @signed op p hop _ _ ih =>
    have hmark : ∀ c ∈ op.symbol.getLast?, isWordChar c = false := by
      cases op <;> first | decide | cases hop
    have hne : op.symbol ≠ [] := (Operator.binary op).symbol_ne_nil
    rw [text, ← List.append_assoc]
    refine ih ?_
    rwa [List.getLast?_append_of_ne_nil _ hne]
  | @join op l r _ _ _ _ hlog _ ih' =>
    rw [text, ← List.append_assoc, ← List.append_assoc]
    by_cases hop : op = .log
    · exact hbracket _ (hlog hop).2
    · have hmark : ∀ c ∈ op.symbol.getLast?, isWordChar c = false := by
        cases op <;> first | decide | exact absurd rfl hop
      have hne : op.symbol ≠ [] := (Operator.binary op).symbol_ne_nil
      refine ih' ?_
      rwa [List.getLast?_append_of_ne_nil _ hne]

end Phrase

end Reckon.Formula
