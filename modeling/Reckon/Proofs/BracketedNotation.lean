import Reckon.Proofs.Displayable
import Reckon.Proofs.RoundTrip
import Reckon.Proofs.Words
import Reckon.Tree.Notation

/-!
# Bracketed notation is faithful

The parts of a tree's notation are its brackets, symbols and leaves (`words_bracketed`). Reading
them gives the tree again (`IsNotatedBy.readTokens_append`), and whatever is read was the notation
of its tree (`exists_of_readTokens`), up to the form of the numbers: a number that is read may be
written in more ways than one, a number that is written loses digits if it has too many of them.
-/

namespace Reckon

open Reckon.Text

namespace Formula

/-- No symbol is a number. -/
theorem number?_symbol (op : Operator) : number? op.symbol = none := by
  refine if_neg ?_
  revert op
  refine Operator.forall_of_byLength ?_
  decide

theorem number?_of_isName {w : List Char} (h : isName w = true) : number? w = none := by
  refine if_neg fun hnumber => ?_
  rw [isName_of_isNumber hnumber] at h
  cases h

end Formula

theorem Operator.ofSymbol?_symbol (op : Operator) : ofSymbol? op.symbol = some op := by
  cases h : ofSymbol? op.symbol with
  | none => simpa using List.find?_eq_none.mp h op op.mem_byLength
  | some op' =>
    have hsymbol : op'.symbol = op.symbol := by simpa using List.find?_some h
    rw [symbol_injective hsymbol]

theorem Operator.symbol_of_ofSymbol? {s : List Char} {op : Operator} (h : ofSymbol? s = some op) :
    op.symbol = s := by
  simpa using List.find?_some h

theorem Operator.isWord_symbol (op : Operator) : IsWord op.symbol where
  ne_nil := op.symbol_ne_nil
  isBlank c hc := Formula.isBlank_of_isPlainChar (Formula.isPlainChar_of_mem_symbol op c hc)

namespace Tree

/-! ### Parts of a notation -/

/-- The parts of the notation, with the numbers as they are displayed. -/
def parts : Tree → Except Failure (List (List Char))
  | number a => do return [← a.displayChars]
  | var x => .ok [x.toList]
  | unary op a => do return ['('] :: op.symbol :: (← a.parts) ++ [[')']]
  | binary op a b => do return ['('] :: op.symbol :: (← a.parts) ++ (← b.parts) ++ [[')']]

theorem words_inBrackets (op : Operator) (s : List Char) :
    words ('(' :: ' ' :: op.symbol ++ ' ' :: s ++ [' ', ')']) =
      ['('] :: op.symbol :: words s ++ [[')']] := by
  have hopen : IsWord ['('] := .singleton (by decide)
  have hclose : IsWord [')'] := .singleton (by decide)
  have hblank : isBlank ' ' = true := by decide
  calc words ('(' :: ' ' :: op.symbol ++ ' ' :: s ++ [' ', ')'])
      = words (['('] ++ ' ' :: (op.symbol ++ ' ' :: (s ++ ' ' :: [')']))) := by simp
    _ = ['('] :: op.symbol :: (words s ++ [[')']]) := by
        rw [words_cons_blank hopen hblank, words_cons_blank op.isWord_symbol hblank,
          words_append_blank hblank, words_of_isWord hclose]

/-- The notation is cut into its parts. -/
theorem words_bracketed {t : Tree} (ht : ∀ x ∈ t.names, IsWord x.toList) :
    t.bracketed.map words = t.parts := by
  induction t with
  | number a =>
    rw [bracketed, parts]
    cases hs : a.displayChars with
    | error f => rfl
    | ok s => exact congrArg Except.ok (words_of_isWord (Decimal.isWord_of_displayChars hs))
  | var x => exact congrArg Except.ok (words_of_isWord (ht x (List.mem_singleton_self x)))
  | unary op a ih =>
    rw [bracketed, parts, ← ih ht]
    cases a.bracketed with
    | error f => rfl
    | ok s => exact congrArg Except.ok (words_inBrackets (.unary op) s)
  | binary op a b iha ihb =>
    rw [bracketed, parts, ← iha fun x hx => ht x (List.mem_append_left _ hx),
      ← ihb fun x hx => ht x (List.mem_append_right _ hx)]
    cases a.bracketed with
    | error f => rfl
    | ok s =>
      cases b.bracketed with
      | error f => rfl
      | ok u =>
        refine congrArg Except.ok ?_
        have hwords := words_inBrackets (.binary op) (s ++ ' ' :: u)
        rw [words_append_blank (by decide) s u] at hwords
        simpa using hwords

/-- `t.IsNotatedBy l`: the parts `l` are a notation of `t`, whose numbers may be written in any way
that is read. -/
inductive IsNotatedBy : Tree → List (List Char) → Prop
  | number {w : List Char} {a : Decimal} (h : Formula.number? w = some a) :
    IsNotatedBy (number a) [w]
  | var {w : List Char} (h : Formula.isName w = true) : IsNotatedBy (var (String.ofList w)) [w]
  | unary {op : Unary} {a : Tree} {l : List (List Char)} (ha : IsNotatedBy a l) :
    IsNotatedBy (unary op a) (['('] :: op.symbol :: l ++ [[')']])
  | binary {op : Binary} {a b : Tree} {l m : List (List Char)} (ha : IsNotatedBy a l)
    (hb : IsNotatedBy b m) : IsNotatedBy (binary op a b) (['('] :: op.symbol :: (l ++ m) ++ [[')']])

/-- A part as it is written again: a number is displayed, anything else stays. -/
def respelled (w : List Char) : Except Failure (List Char) :=
  match Formula.number? w with
  | some a => a.displayChars
  | none => .ok w

theorem respelled_symbol (op : Operator) : respelled op.symbol = .ok op.symbol := by
  rw [respelled, Formula.number?_symbol]

theorem respelled_bracket {c : Char} (hc : c = '(' ∨ c = ')') : respelled [c] = .ok [c] := by
  rcases hc with rfl | rfl
  · rfl
  · rfl

namespace IsNotatedBy
variable {t : Tree} {l : List (List Char)}

/-- Writing the tree respells the parts. -/
theorem parts_eq (h : t.IsNotatedBy l) : t.parts = l.mapM respelled := by
  have hopen := respelled_bracket (.inl rfl)
  have hclose := respelled_bracket (.inr rfl)
  induction h with
  | number h =>
    rw [parts, List.mapM_cons, respelled, h]
    rfl
  | var h =>
    rw [parts, List.mapM_cons, respelled, Formula.number?_of_isName h, String.toList_ofList]
    rfl
  | @unary op a l ha ih =>
    have hop := respelled_symbol (.unary op)
    rw [Operator.symbol_unary] at hop
    simp only [parts, ih, List.mapM_cons, List.mapM_append, hop, hopen, hclose]
    cases l.mapM respelled with
    | error f => rfl
    | ok l => rfl
  | @binary op a b l m ha hb iha ihb =>
    have hop := respelled_symbol (.binary op)
    rw [Operator.symbol_binary] at hop
    simp only [parts, iha, ihb, List.mapM_cons, List.mapM_append, hop, hopen, hclose]
    cases l.mapM respelled with
    | error f => rfl
    | ok l =>
      cases m.mapM respelled with
      | error f => rfl
      | ok m => rfl

/-- The names are parts of the notation. -/
theorem mem_of_mem_names (h : t.IsNotatedBy l) {x : String} (hx : x ∈ t.names) : x.toList ∈ l := by
  induction h with
  | number h => cases hx
  | var h =>
    rw [names, List.mem_singleton] at hx
    rw [hx, String.toList_ofList]
    exact List.mem_singleton_self _
  | unary ha ih => simp [ih hx]
  | binary ha hb iha ihb =>
    rcases List.mem_append.mp hx with hx | hx
    · simp [iha hx]
    · simp [ihb hx]

end IsNotatedBy

/-! ### Reading a notation -/

/-- The number of operators around the deepest leaf. -/
def height : Tree → Nat
  | number _ | var _ => 0
  | unary _ a => a.height + 1
  | binary _ a b => max a.height b.height + 1

/-- Reading goes on with a tree behind the operands of the innermost operator that is open. -/
def deliver (tree : Tree) (rest : List (List Char)) :
    List OpenNode → Except Failure (Tree × List (List Char))
  | [] => .ok (tree, rest)
  | outer :: stack => readTokens (⟨outer.symbol, tree :: outer.operands⟩ :: stack) rest

section
variable {stack : List OpenNode} {rest : List (List Char)} {token : List Char} {tree : Tree}

theorem readTokens_open (hdepth : stack.length ≤ maxDepth) (symbol : List Char) :
    readTokens stack (['('] :: symbol :: rest) = readTokens (⟨symbol, []⟩ :: stack) rest := by
  rw [readTokens, if_neg (Nat.not_lt.mpr hdepth), if_pos rfl]
  exact fun _ _ h => absurd h (by decide)

theorem readTokens_close {node : OpenNode} (hclose : node.close = .ok tree) :
    readTokens (node :: stack) ([')'] :: rest) = deliver tree rest stack := by
  rw [readTokens, hclose]
  · rfl
  · rfl

/-- Brackets are no leaves. -/
theorem ofAtom_bracket {c : Char} (hc : c = '(' ∨ c = ')') : ofAtom [c] ≠ .ok tree := by
  rcases hc with rfl | rfl
  · intro h
    cases h
  · intro h
    cases h

theorem readTokens_leaf (hdepth : stack.length ≤ maxDepth) (hatom : ofAtom token = .ok tree) :
    readTokens stack (token :: rest) = deliver tree rest stack := by
  have hopen : token ≠ ['('] := by
    rintro rfl
    exact ofAtom_bracket (.inl rfl) hatom
  have hclose : (token == [')']) = false := by
    refine beq_eq_false_iff_ne.mpr ?_
    rintro rfl
    exact ofAtom_bracket (.inr rfl) hatom
  rw [readTokens.eq_def]
  simp only [hclose]
  rw [if_neg (Nat.not_lt.mpr hdepth), if_neg hopen, hatom]
  rfl

end

/-- An operator is known by its symbol and has as many operands as it takes. -/
theorem ofSymbol_eq_ok_iff {symbol : List Char} {a t : Tree} {right : Option Tree} :
    ofSymbol (String.ofList symbol) a right = .ok t ↔
      (∃ op : Unary, symbol = op.symbol ∧ right = none ∧ t = unary op a) ∨
        ∃ (op : Binary) (b : Tree), symbol = op.symbol ∧ right = some b ∧ t = binary op a b := by
  constructor
  · intro h
    unfold ofSymbol at h
    rw [String.toList_ofList] at h
    split at h
    · cases h
    · rename_i op hop
      cases h
      exact .inl ⟨op, (Operator.symbol_of_ofSymbol? hop).symm, rfl, rfl⟩
    · rename_i op b hop
      cases h
      exact .inr ⟨op, b, (Operator.symbol_of_ofSymbol? hop).symm, rfl, rfl⟩
    · cases h
  · rintro (⟨op, rfl, rfl, rfl⟩ | ⟨op, b, rfl, rfl, rfl⟩)
    · have hsymbol := Operator.ofSymbol?_symbol (.unary op)
      rw [Operator.symbol_unary] at hsymbol
      simp [ofSymbol, hsymbol]
    · have hsymbol := Operator.ofSymbol?_symbol (.binary op)
      rw [Operator.symbol_binary] at hsymbol
      simp [ofSymbol, hsymbol]

/-- Closed brackets hold an operator with its operands. -/
theorem close_eq_ok_iff {node : OpenNode} {t : Tree} :
    node.close = .ok t ↔
      (∃ op a, node = ⟨op.symbol, [a]⟩ ∧ t = unary op a) ∨
        ∃ op a b, node = ⟨op.symbol, [b, a]⟩ ∧ t = binary op a b := by
  obtain ⟨symbol, operands⟩ := node
  constructor
  · intro h
    simp only [OpenNode.close] at h
    split at h
    · rename_i a
      have h := ofSymbol_eq_ok_iff.mp (mapError_eq_ok_iff.mp h)
      rcases h with ⟨op, rfl, -, rfl⟩ | ⟨_, _, -, h, -⟩
      · exact .inl ⟨op, a, rfl, rfl⟩
      · cases h
    · rename_i b a
      have h := ofSymbol_eq_ok_iff.mp (mapError_eq_ok_iff.mp h)
      rcases h with ⟨_, -, h, -⟩ | ⟨op, c, rfl, hc, rfl⟩
      · cases h
      · obtain rfl : b = c := Option.some.inj hc
        exact .inr ⟨op, a, b, rfl, rfl⟩
    · cases h
  · rintro (⟨op, a, h, rfl⟩ | ⟨op, a, b, h, rfl⟩)
    · rw [h]
      exact mapError_eq_ok_iff.mpr (ofSymbol_eq_ok_iff.mpr (.inl ⟨op, rfl, rfl, rfl⟩))
    · rw [h]
      exact mapError_eq_ok_iff.mpr (ofSymbol_eq_ok_iff.mpr (.inr ⟨op, b, rfl, rfl, rfl⟩))

/-- A notation of a tree that is not too high is read as that tree. -/
theorem IsNotatedBy.readTokens_append {t : Tree} {l : List (List Char)} (h : t.IsNotatedBy l)
    {stack : List OpenNode} (hdepth : stack.length + t.height ≤ maxDepth)
    (rest : List (List Char)) : readTokens stack (l ++ rest) = deliver t rest stack := by
  induction h generalizing stack rest with
  | number h => exact readTokens_leaf hdepth (by rw [ofAtom, h])
  | var h =>
    refine readTokens_leaf hdepth ?_
    rw [ofAtom, Formula.number?_of_isName h]
    exact if_pos h
  | @unary op a l ha ih =>
    have hclose := close_eq_ok_iff.mpr (.inl ⟨op, a, rfl, rfl⟩)
    rw [height] at hdepth
    simp only [List.cons_append, List.append_assoc, List.nil_append]
    rw [readTokens_open (by omega), ih (by rw [List.length_cons]; omega), deliver,
      readTokens_close hclose]
  | @binary op a b l m ha hb iha ihb =>
    have hclose := close_eq_ok_iff.mpr (.inr ⟨op, a, b, rfl, rfl⟩)
    rw [height] at hdepth
    simp only [List.cons_append, List.append_assoc, List.nil_append]
    rw [readTokens_open (by omega), iha (by rw [List.length_cons]; omega), deliver,
      ihb (by rw [List.length_cons]; omega), deliver, readTokens_close hclose]

/-! ### What has been read -/

section
variable {symbol : List Char} {operands : List Tree} {node : OpenNode} {stack : List OpenNode}
  {l m tokens rest : List (List Char)} {t tree : Tree}

/-- `HasRead stack l`: the parts `l` have been read when the operators `stack` are open. -/
inductive HasRead : List OpenNode → List (List Char) → Prop
  | start : HasRead [] []
  | opened {stack : List OpenNode} {l : List (List Char)} (symbol : List Char)
    (h : HasRead stack l) : HasRead (⟨symbol, []⟩ :: stack) (l ++ [['('], symbol])
  | operand {symbol : List Char} {operands : List Tree} {stack : List OpenNode}
    {l m : List (List Char)} {t : Tree} (h : HasRead (⟨symbol, operands⟩ :: stack) l)
    (ht : t.IsNotatedBy m) : HasRead (⟨symbol, t :: operands⟩ :: stack) (l ++ m)

namespace HasRead

theorem eq_nil (h : HasRead [] l) : l = [] := by
  cases h
  rfl

theorem exists_of_opened (h : HasRead (⟨symbol, []⟩ :: stack) l) :
    ∃ before, HasRead stack before ∧ l = before ++ [['('], symbol] := by
  cases h with
  | opened _ h => exact ⟨_, h, rfl⟩

theorem exists_of_operand (h : HasRead (⟨symbol, t :: operands⟩ :: stack) l) :
    ∃ before m, HasRead (⟨symbol, operands⟩ :: stack) before ∧ t.IsNotatedBy m ∧
      l = before ++ m := by
  cases h with
  | operand h ht => exact ⟨_, _, h, ht, rfl⟩

/-- With the closing bracket the notation of a tree is complete. -/
theorem close (h : HasRead (node :: stack) l) (hclose : node.close = .ok t) :
    ∃ before m, HasRead stack before ∧ t.IsNotatedBy m ∧ l ++ [[')']] = before ++ m := by
  rcases close_eq_ok_iff.mp hclose with ⟨op, a, rfl, rfl⟩ | ⟨op, a, b, rfl, rfl⟩
  · obtain ⟨l₁, la, h₁, ha, rfl⟩ := h.exists_of_operand
    obtain ⟨before, hbefore, rfl⟩ := h₁.exists_of_opened
    exact ⟨before, _, hbefore, .unary ha, by simp⟩
  · obtain ⟨l₁, lb, h₁, hb, rfl⟩ := h.exists_of_operand
    obtain ⟨l₂, la, h₂, ha, rfl⟩ := h₁.exists_of_operand
    obtain ⟨before, hbefore, rfl⟩ := h₂.exists_of_opened
    exact ⟨before, _, hbefore, .binary ha hb, by simp⟩

/-- Where nothing is open, the tree behind what has been read is all there is; otherwise reading
goes on with one more operand. -/
theorem exists_of_deliver (h : HasRead stack l) (ht : tree.IsNotatedBy m)
    (hdeliver : deliver tree tokens stack = .ok (t, rest))
    (hread : ∀ (outer : OpenNode) (below : List OpenNode) (before : List (List Char)),
      HasRead (⟨outer.symbol, tree :: outer.operands⟩ :: below) before →
      readTokens (⟨outer.symbol, tree :: outer.operands⟩ :: below) tokens = .ok (t, rest) →
      ∃ k, t.IsNotatedBy k ∧ before ++ tokens = k ++ rest) :
    ∃ k, t.IsNotatedBy k ∧ l ++ m ++ tokens = k ++ rest := by
  cases stack with
  | nil =>
    obtain rfl := h.eq_nil
    cases hdeliver
    exact ⟨m, ht, rfl⟩
  | cons outer below => exact hread outer below _ (h.operand ht) hdeliver

end HasRead

theorem isNotatedBy_of_ofAtom {w : List Char} (h : ofAtom w = .ok t) : t.IsNotatedBy [w] := by
  rw [ofAtom] at h
  split at h
  · rename_i a ha
    cases h
    exact .number ha
  · split at h
    · rename_i hname
      cases h
      exact .var hname
    · cases h

/-- What is read in front of the rest is a notation of the tree. -/
theorem exists_of_readTokens {before : List (List Char)} (hread : HasRead stack before)
    (h : readTokens stack tokens = .ok (t, rest)) :
    ∃ l, t.IsNotatedBy l ∧ before ++ tokens = l ++ rest := by
  fun_induction readTokens stack tokens generalizing before with
  | case1 => cases h
  | case2 token tokens node stack hbracket ih =>
    obtain rfl : token = [')'] := by simpa using hbracket
    obtain ⟨tree, hclose, h⟩ := bind_eq_ok_iff.mp h
    obtain ⟨outside, m, houtside, ht, hsplit⟩ := hread.close hclose
    obtain ⟨l, hl, heq⟩ := houtside.exists_of_deliver ht h fun outer below _ hread h =>
      ih tree outer below hread h
    exact ⟨l, hl, by rw [← heq, ← hsplit, List.append_assoc, List.singleton_append]⟩
  | case3 => cases h
  | case4 => cases h
  | case5 stack hdepth symbol tokens _ ih =>
    obtain ⟨l, hl, heq⟩ := ih (hread.opened symbol) h
    exact ⟨l, hl, by simpa using heq⟩
  | case6 token tokens stack hdepth hopen _ ih =>
    obtain ⟨tree, hatom, h⟩ := bind_eq_ok_iff.mp h
    obtain ⟨l, hl, heq⟩ := hread.exists_of_deliver (isNotatedBy_of_ofAtom hatom) h
      fun outer below _ hread h => ih tree outer below hread h
    exact ⟨l, hl, by simpa using heq⟩

end

theorem ofBracketed_eq_ok_iff {s : List Char} {t : Tree} :
    ofBracketed s = .ok t ↔ readTokens [] (words s) = .ok (t, []) := by
  rw [ofBracketed]
  split
  · rename_i hwords
    constructor
    · intro h
      cases h
    · intro h
      rw [hwords] at h
      cases h
  constructor
  · intro h
    obtain ⟨⟨t', rest⟩, hread, h⟩ := bind_eq_ok_iff.mp h
    cases rest with
    | nil =>
      cases h
      exact hread
    | cons => cases h
  · intro h
    rw [h]
    rfl

/-- The text that a tree was read from is a notation of it. -/
theorem isNotatedBy_of_ofBracketed {s : List Char} {t : Tree} (h : ofBracketed s = .ok t) :
    t.IsNotatedBy (words s) := by
  obtain ⟨l, hl, heq⟩ := exists_of_readTokens .start (ofBracketed_eq_ok_iff.mp h)
  rw [List.nil_append, List.append_nil] at heq
  rwa [heq]

/-- Writing what was read respells the words of the text, and fails if one of them cannot be
respelled. -/
theorem words_bracketed_of_ofBracketed {s : List Char} {t : Tree} (h : ofBracketed s = .ok t) :
    t.bracketed.map words = (words s).mapM respelled := by
  have hl := isNotatedBy_of_ofBracketed h
  rw [words_bracketed fun x hx => isWord_of_mem_words (hl.mem_of_mem_names hx), hl.parts_eq]

end Tree

end Reckon
