import Reckon.Proofs.Reading

/-!
# Precedence

A tree with the texts of its numbers is written with as few brackets as the ranks of the operators
allow, operators of the same rank taken from left to right; reading it gives the tree back
(`Draft.read_eq_ok_or_tooDeep`).
-/

namespace Reckon.Formula

/-- A tree whose numbers are given by their texts. -/
inductive Draft where
  | literal (l : Literal)
  | name (x : Name)
  | unary (op : Unary) (operand : Draft)
  | binary (op : Binary) (left right : Draft)

namespace Draft

open Phrase (bracketedIf groupedIf text_groupedIf wellFormed_groupedIf)

def tree : Draft → Tree
  | literal l => .number l.value
  | name x => .var (String.ofList x.chars)
  | unary op a => .unary op a.tree
  | binary op a b => .binary op a.tree b.tree

def isUnary : Draft → Bool
  | unary .. => true
  | _ => false

/-- Whether a draft as the left operand of `op` is written in brackets: a looser operator, and
beside `log` everything that has no brackets of its own. -/
def bracketsLeft (op : Binary) (a : Draft) : Bool :=
  if op = .log then !a.isUnary
  else
    match a with
    | binary inner _ _ => op.rank < inner.rank
    | _ => false

/-- Whether a draft as the right operand of `op` is written in brackets. Here an operator of the
same rank is, too. -/
def bracketsRight (op : Binary) (b : Draft) : Bool :=
  if op = .log then !b.isUnary
  else
    match b with
    | binary inner _ _ => op.rank ≤ inner.rank
    | _ => false

/-- The text of a draft. -/
def text : Draft → List Char
  | literal l => l.chars
  | name x => x.chars
  | unary op a => op.symbol ++ Tree.inBrackets a.text
  | binary op a b =>
    bracketedIf (bracketsLeft op a) a.text ++ op.symbol ++ bracketedIf (bracketsRight op b) b.text

/-! ### The phrase of a draft -/

def phrase : Draft → Phrase
  | literal l => .literal l
  | name x => .name x
  | unary op a => .apply op a.phrase
  | binary op a b =>
    .join op (groupedIf (bracketsLeft op a) a.phrase) (groupedIf (bracketsRight op b) b.phrase)

theorem text_phrase (d : Draft) : d.phrase.text = d.text := by
  induction d with
  | literal | name => rfl
  | unary op a ih => rw [phrase, Phrase.text, ih, text]
  | binary op a b iha ihb =>
    rw [phrase, Phrase.text, text_groupedIf, text_groupedIf, iha, ihb, text, List.append_assoc]

/-- No sign stands in front of a draft, so it does not matter what follows. -/
theorem treeAs_phrase (d : Draft) (alone : Bool) : d.phrase.treeAs alone = d.tree := by
  have hgrouped : ∀ (brackets : Bool) (p : Phrase) (t : Tree),
      (∀ alone, p.treeAs alone = t) → ∀ alone, (groupedIf brackets p).treeAs alone = t := by
    intro brackets p t h alone
    cases brackets with
    | true => exact h true
    | false => exact h alone
  induction d generalizing alone with
  | literal | name => rfl
  | unary op a ih => rw [phrase, Phrase.treeAs, ih, tree]
  | binary op a b iha ihb =>
    rw [phrase, Phrase.treeAs, hgrouped _ _ _ iha, hgrouped _ _ _ ihb, tree]

theorem outerRank_left (op : Binary) (a : Draft) :
    (groupedIf (bracketsLeft op a) a.phrase).outerRank ≤ op.rank := by
  cases hb : bracketsLeft op a with
  | true => exact Nat.zero_le _
  | false =>
    cases a with
    | literal | name | unary => exact Nat.zero_le _
    | binary inner a b =>
      have hlog : op ≠ .log := by
        rintro rfl
        cases hb
      simp only [bracketsLeft, hlog, ↓reduceIte, decide_eq_false_iff_not, Nat.not_lt] at hb
      exact hb

theorem rank_right (op : Binary) (b : Draft) :
    (groupedIf (bracketsRight op b) b.phrase).rank < op.rank := by
  have hpos : 0 < op.rank := lt_of_lt_of_le (by decide) (three_le_rank op)
  cases hb : bracketsRight op b with
  | true => exact hpos
  | false =>
    cases b with
    | literal | name | unary => exact hpos
    | binary inner a b =>
      have hlog : op ≠ .log := by
        rintro rfl
        cases hb
      simp only [bracketsRight, hlog, ↓reduceIte, decide_eq_false_iff_not, Nat.not_le] at hb
      exact hb

/-- The operands of `log` have brackets of their own. -/
theorem isClosed_groupedIf (a : Draft) : (groupedIf (!a.isUnary) a.phrase).isClosed = true := by
  cases a with
  | literal | name | unary | binary => rfl

theorem wellFormed_phrase (d : Draft) : d.phrase.WellFormed := by
  induction d with
  | literal l => exact .literal l
  | name x => exact .name x
  | unary op a ih => exact .apply ih
  | binary op a b iha ihb =>
    refine .join (wellFormed_groupedIf iha) (wellFormed_groupedIf ihb) (outerRank_left op a)
      (rank_right op b) ?_
    rintro rfl
    exact ⟨isClosed_groupedIf a, isClosed_groupedIf b⟩

/-- A draft is read back as its tree, unless it is nested too deeply, which it is not if its text
has no more levels than a formula may have. -/
theorem read_eq_ok_or_tooDeep (d : Draft) :
    (read d.text = .ok d.tree ∨ read d.text = .error .tooDeep) ∧
      (d.phrase.levels ≤ maxDepth → read d.text = .ok d.tree) := by
  have h := Phrase.read_text d.wellFormed_phrase
  rw [text_phrase, Phrase.tree, treeAs_phrase] at h
  refine ⟨h, fun hlevels => ?_⟩
  have hread := Phrase.readLevels_text_of_lt d.wellFormed_phrase (Nat.lt_succ_of_le hlevels)
  rwa [text_phrase, Phrase.tree, treeAs_phrase] at hread

example : read ['a', '-', 'b', '-', '2', '^', 'c'] =
    .ok (.binary .minus (.binary .minus (.var "a") (.var "b"))
      (.binary .power (.number .two) (.var "c"))) := by
  decide +kernel

end Draft

end Reckon.Formula
