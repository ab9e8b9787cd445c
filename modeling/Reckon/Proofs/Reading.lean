import Reckon.Proofs.Phrase
import Reckon.Proofs.ReaderSteps

/-!
# Reading phrases

The text of a well-formed phrase is read as the tree of the phrase, unless it is nested too deeply,
which it is on its `levels` at most (`readLevels_text`). The search for the end of an operand runs
over a phrase whose operators bind tighter (`argumentFrom_text`), a chain is read one operand after
the other (`readChain_text`), and the rest is an induction on the levels that the reader may
descend.
-/

namespace Reckon.Formula

open Reckon.Text

/-! ### Where no operator begins -/

theorem longestMatch_of_isDigit {c : Char} (h : isDigit c = true ∨ c = '.') (s : List Char) :
    Operator.longestMatch (c :: s) = none := by
  refine Operator.longestMatch_cons_eq_none ?_
  intro op hc
  rcases h with h | rfl
  · rw [op.isDigit_head hc] at h
    cases h
  · exact op.not_mem_symbol (by decide) (List.mem_of_mem_head? hc)

theorem longestMatch_bracket {c : Char} (hc : c = '(' ∨ c = ')') (s : List Char) :
    Operator.longestMatch (c :: s) = none := by
  refine Operator.longestMatch_cons_eq_none ?_
  intro op hmem
  refine op.not_mem_symbol ?_ (List.mem_of_mem_head? hmem)
  rcases hc with rfl | rfl
  · decide
  · decide

/-- Behind a name a mark, a bracket or nothing keeps its characters from being part of a symbol. -/
theorem longestMatch_of_suffix {s v rest : List Char} (hop : hasOperator s = false)
    (hword : ∀ c ∈ s, isWordChar c = true) (hv : v <:+ s) (hne : v ≠ [])
    (hrest : ∀ c ∈ rest.head?, isWordChar c = false) :
    Operator.longestMatch (v ++ rest) = none := by
  refine Operator.longestMatch_eq_none_iff.mpr ?_
  intro op hp
  obtain ⟨d, t, rfl⟩ := List.exists_cons_of_ne_nil hne
  have hd : isWordChar d = true := hword d (hv.subset (List.mem_cons_self ..))
  have hlead := Operator.symbol_prefix_of_append ⟨d, rfl, hd⟩ hrest hp
  rw [hasOperator_of_contains (hlead.isInfix.trans hv.isInfix)] at hop
  cases hop

/-- The search runs over characters where no operator begins. -/
theorem argumentFrom_plain {op : Option Operator} {taken s rest : List Char}
    (hs : ∀ c ∈ s, c ≠ '(')
    (h : ∀ v, v <:+ s → v ≠ [] → Operator.longestMatch (v ++ rest) = none) :
    argumentFrom op taken (s ++ rest) = argumentFrom op (s.reverse ++ taken) rest := by
  induction s generalizing taken with
  | nil => rfl
  | cons c s ih =>
    have hm := h (c :: s) List.suffix_rfl (List.cons_ne_nil _ _)
    rw [List.cons_append] at hm ⊢
    rw [argumentFrom_cons (hs c (List.mem_cons_self ..)) hm,
      ih (fun d hd => hs d (List.mem_cons_of_mem c hd))
        fun v hv hne => h v (hv.trans (List.suffix_cons c s)) hne]
    simp

/-! ### Symbols in front of phrases -/

theorem isWord_binary_iff {op : Binary} : (Operator.binary op).isWord = true ↔ op = .log := by
  cases op <;> decide

/-- Operators of one operand bind tighter than those of two. -/
theorem unary_rank (op : Unary) : 0 < op.rank ∧ op.rank ≤ 2 := by
  cases op <;> decide

theorem three_le_rank (op : Binary) : 3 ≤ op.rank := by
  cases op <;> decide

theorem head_symbol_append {op : Binary} (hop : op ≠ .log) (s : List Char) :
    ∀ c ∈ (op.symbol ++ s).head?, isWordChar c = false := by
  rw [← Operator.symbol_binary, Operator.head?_symbol_append]
  cases op <;> first | decide | exact absurd rfl hop

namespace Phrase

theorem longestMatch_binary {p : Phrase} (h : p.WellFormed) (op : Binary) (rest : List Char) :
    Operator.longestMatch (op.symbol ++ (p.text ++ rest)) = some (.binary op) := by
  rw [← Operator.symbol_binary]
  refine Operator.longestMatch_symbol_append fun c hc => ⟨fun hword => .inr ?_, fun _ => ?_⟩
  · rw [isWord_binary_iff.mp hword]
  · exact head_text_ne h rest c hc

theorem longestMatch_unary (op : Unary) (p : Phrase) (rest : List Char) :
    Operator.longestMatch (op.symbol ++ (Tree.inBrackets p.text ++ rest)) =
      some (.unary op) := by
  rw [← Operator.symbol_unary]
  refine Operator.longestMatch_symbol_append fun c hc => ?_
  obtain rfl : '(' = c := by simpa [Tree.inBrackets] using hc
  exact ⟨fun _ => .inl (by decide), fun _ => by decide⟩

/-- No operator begins where an atom does. -/
theorem longestMatch_of_isAtom {p : Phrase} (h : p.WellFormed) (hatom : p.isAtom = true)
    {rest : List Char}
    (hrest : p.endsInName = true → ∀ c ∈ rest.head?, isWordChar c = false) :
    Operator.longestMatch (p.text ++ rest) = none := by
  cases h with
  | literal l =>
    obtain ⟨c, s, hs⟩ := List.exists_cons_of_ne_nil (isMagnitude_ne_nil l.isMagnitude)
    rw [text, hs]
    refine longestMatch_of_isDigit (mem_isMagnitude l.isMagnitude ?_) _
    rw [hs]
    exact List.mem_cons_self ..
  | name x =>
    exact longestMatch_of_suffix x.hasOperator (fun _ => mem_isIdentifier x.isIdentifier)
      List.suffix_rfl (text_ne_nil (.name x)) (hrest rfl)
  | group => exact longestMatch_bracket (.inl rfl) _
  | apply | signed | join => cases hatom

/-! ### Cutting operands -/

/-- The search for the end of an operand runs over a phrase whose operators belong to the
operand. -/
theorem argumentFrom_text {p : Phrase} (h : p.WellFormed) {op : Option Operator}
    (hpass : ∀ next : Binary, next.rank ≤ p.rank → endsOperandOf op (.binary next) = false)
    {taken rest : List Char}
    (htaken : taken = [] ∨ isBinaryOperator (backTrack taken) = true)
    (hrest : p.endsInName = true → ∀ c ∈ rest.head?, isWordChar c = false) :
    argumentFrom op taken (p.text ++ rest) = argumentFrom op (p.text.reverse ++ taken) rest := by
  induction h generalizing taken rest with
  | literal l =>
    refine argumentFrom_plain ?_ ?_
    · rintro c hc rfl
      exact not_mem_isMagnitude l.isMagnitude (by decide) (by decide) hc
    · intro v hv hne
      obtain ⟨c, s, rfl⟩ := List.exists_cons_of_ne_nil hne
      exact longestMatch_of_isDigit
        (mem_isMagnitude l.isMagnitude (hv.subset (List.mem_cons_self ..))) _
  | name x =>
    have hword : ∀ c ∈ x.chars, isWordChar c = true := fun _ => mem_isIdentifier x.isIdentifier
    refine argumentFrom_plain ?_ ?_
    · rintro c hc rfl
      have := hword _ hc
      revert this
      decide
    · intro v hv hne
      exact longestMatch_of_suffix x.hasOperator hword hv hne (hrest rfl)
  | group h => exact argumentFrom_inBrackets (nested_text h) rest
  | @apply op' p h =>
    have hm := longestMatch_unary op' p rest
    have hstep := @argumentFrom_operator op taken _ (.unary op') hm (htaken.imp_right .inl)
    rw [Operator.symbol_unary] at hstep
    rw [text, List.append_assoc, hstep, argumentFrom_inBrackets (nested_text h)]
    simp
  | @signed op' p _ h _ ih =>
    have hm := longestMatch_binary h op' rest
    have hstep := @argumentFrom_operator op taken _ (.binary op') hm (htaken.imp_right .inl)
    rw [Operator.symbol_binary] at hstep
    have hback : isBinaryOperator (backTrack (op'.symbol.reverse ++ taken)) = true :=
      isBinaryOperator_backTrack_iff.mpr ⟨op', List.prefix_append _ _⟩
    rw [text, List.append_assoc, hstep, ih hpass (.inr hback) hrest]
    simp
  | @join op' l r hl hr hleft hright hlog ihl ihr =>
    have hm := longestMatch_binary hr op' rest
    have hbelongs : endsOperandOf op (.binary op') = false := hpass op' (Nat.le_refl _)
    have hstep := @argumentFrom_operator op (l.text.reverse ++ taken) _ (.binary op') hm
      (.inr (.inr hbelongs))
    rw [Operator.symbol_binary] at hstep
    have hback : isBinaryOperator
        (backTrack (op'.symbol.reverse ++ (l.text.reverse ++ taken))) = true :=
      isBinaryOperator_backTrack_iff.mpr ⟨op', List.prefix_append _ _⟩
    have hlpass : ∀ next : Binary, next.rank ≤ l.rank → endsOperandOf op (.binary next) = false :=
      fun next hnext => hpass next (hnext.trans ((rank_le_outerRank hl).trans hleft))
    have hrpass : ∀ next : Binary, next.rank ≤ r.rank → endsOperandOf op (.binary next) = false :=
      fun next hnext => hpass next (hnext.trans hright.le)
    have hlrest : l.endsInName = true →
        ∀ c ∈ (op'.symbol ++ (r.text ++ rest)).head?, isWordChar c = false := by
      intro hname
      refine head_symbol_append ?_ _
      intro hop
      rw [endsInName_of_isClosed (hlog hop).1] at hname
      cases hname
    rw [text, List.append_assoc, List.append_assoc, ihl hlpass htaken hlrest, hstep,
      ihr hrpass (.inr hback) hrest]
    simp

theorem not_isBinaryOperator_backTrack_text {p : Phrase} (h : p.WellFormed) :
    isBinaryOperator (backTrack p.text.reverse) = false := by
  by_contra hback
  obtain ⟨b, hb⟩ := isBinaryOperator_backTrack_iff.mp (by simpa using hback)
  have hnot : ¬ b.symbol <:+ [] ++ p.text := not_symbol_suffix_text h b (by simp)
  exact hnot (List.reverse_prefix.mp hb)

/-- What stands behind an operand: nothing, or an operator that ends it. -/
def Follows (op : Option Operator) (rest : List Char) : Prop :=
  rest = [] ∨ ∃ next : Binary,
    Operator.longestMatch rest = some (.binary next) ∧ endsOperandOf op (.binary next) = true

/-- The operand is the phrase in front of the operator that ends it. -/
theorem argument_text {p : Phrase} (h : p.WellFormed) {op : Option Operator}
    (hpass : ∀ next : Binary, next.rank ≤ p.rank → endsOperandOf op (.binary next) = false)
    {rest : List Char} (hfollows : Follows op rest)
    (hrest : p.endsInName = true → ∀ c ∈ rest.head?, isWordChar c = false) :
    argument op (p.text ++ rest) = (p.text, rest) := by
  rw [argument, argumentFrom_text h hpass (.inl rfl) hrest, List.append_nil]
  rcases hfollows with rfl | ⟨next, hm, hend⟩
  · rw [argumentFrom_nil, List.reverse_reverse]
  · rw [argumentFrom_stop hm (by simpa using text_ne_nil h)
      (not_isBinaryOperator_backTrack_text h) hend, List.reverse_reverse]

theorem argument_operand {p : Phrase} (h : p.WellFormed) (op : Operator) (hrank : p.rank < op.rank)
    {rest : List Char}
    (hfollows : rest = [] ∨ ∃ next : Binary,
      Operator.longestMatch rest = some (.binary next) ∧ op.rank ≤ next.rank)
    (hrest : p.endsInName = true → ∀ c ∈ rest.head?, isWordChar c = false) :
    argument (some op) (p.text ++ rest) = (p.text, rest) := by
  refine argument_text h (fun next hnext => ?_) ?_ hrest
  · simp only [endsOperandOf, Option.all_some, decide_eq_false_iff_not, Nat.not_le]
    exact lt_of_le_of_lt hnext hrank
  · refine hfollows.imp_right fun ⟨next, hnext, hle⟩ => ⟨next, hnext, ?_⟩
    exact decide_eq_true hle

/-! ### Reading a chain -/

/-- What a chain reads of a phrase, its operands read by `below`. -/
def readVia (below : List Char → Except Failure Tree) : Phrase → Except Failure Tree
  | apply op p => do return .unary op (← below (Tree.inBrackets p.text))
  | signed op p => do return .binary op .zero (← below p.text)
  | join op l r => do
    let left ← l.readVia below
    return .binary op left (← below r.text)
  | p => below p.text

section
variable {below : List Char → Except Failure Tree} {whole : List Char}

/-- Behind an operand a chain goes on with an operator and the phrase behind it. -/
theorem readChain_join {op : Binary} {p : Phrase} (h : p.WellFormed) (hrank : p.rank < op.rank)
    {rest : List Char}
    (hfollows : rest = [] ∨ ∃ next : Binary,
      Operator.longestMatch rest = some (.binary next) ∧ op.rank ≤ next.rank)
    (hrest : p.endsInName = true → ∀ c ∈ rest.head?, isWordChar c = false) (left : Tree) :
    readChain below whole (some left) (op.symbol ++ (p.text ++ rest)) =
      below p.text >>= fun right => readChain below whole (some (.binary op left right)) rest := by
  rw [readChain_binary (longestMatch_binary h op rest)]
  have hoperand : argument (some (.binary op)) (p.text ++ rest) = (p.text, rest) :=
    argument_operand h (.binary op) hrank hfollows hrest
  simp [hoperand, text_ne_nil h]

theorem readChain_text {p : Phrase} (h : p.WellFormed) (hatom : p.isAtom = false)
    {rest : List Char}
    (hfollows : rest = [] ∨ ∃ next : Binary,
      Operator.longestMatch rest = some (.binary next) ∧ p.outerRank ≤ next.rank)
    (hrest : p.endsInName = true → ∀ c ∈ rest.head?, isWordChar c = false) :
    readChain below whole none (p.text ++ rest) =
      p.readVia below >>= fun t => readChain below whole (some t) rest := by
  induction h generalizing rest with
  | literal | name | group => cases hatom
  | @apply op p h =>
    have hm := longestMatch_unary op p rest
    have hoperand : argument (some (.unary op)) (Tree.inBrackets p.text ++ rest) =
        (Tree.inBrackets p.text, rest) := by
      refine argument_operand (.group h) (.unary op) (unary_rank op).1 ?_
        (fun hname => by cases hname)
      refine hfollows.imp_right fun ⟨next, hnext, _⟩ => ⟨next, hnext, ?_⟩
      have h3 := three_le_rank next
      exact (unary_rank op).2.trans (le_trans (by decide) h3)
    rw [text, List.append_assoc, readChain_unary hm]
    have hne : Tree.inBrackets p.text ≠ [] := List.cons_ne_nil _ _
    simp [hoperand, hne, readVia]
  | @signed op p hop h hrank _ =>
    have hm := longestMatch_binary h op rest
    have hoperand : argument (some (.binary op)) (p.text ++ rest) = (p.text, rest) :=
      argument_operand h (.binary op) hrank hfollows hrest
    rw [text, List.append_assoc, readChain_binary hm]
    simp [hoperand, text_ne_nil h, hop, readVia]
  | @join op l r hl hr hleft hright hlog ihl _ =>
    have hm := longestMatch_binary hr op rest
    have hoperand : argument (some (.binary op)) (r.text ++ rest) = (r.text, rest) :=
      argument_operand hr (.binary op) hright hfollows hrest
    have hlrest : l.endsInName = true →
        ∀ c ∈ (op.symbol ++ (r.text ++ rest)).head?, isWordChar c = false := by
      intro hname
      refine head_symbol_append ?_ _
      intro hop
      rw [endsInName_of_isClosed (hlog hop).1] at hname
      cases hname
    rw [text, List.append_assoc, List.append_assoc]
    cases hl_atom : l.isAtom with
    | true =>
      have hl_none := longestMatch_of_isAtom hl hl_atom hlrest
      have hfirst : argument none (l.text ++ (op.symbol ++ (r.text ++ rest))) =
          (l.text, op.symbol ++ (r.text ++ rest)) := by
        refine argument_text hl (fun next hnext => ?_) (.inr ⟨op, hm, rfl⟩) hlrest
        have h3 := three_le_rank next
        have h0 : l.rank = 0 := by
          cases l with
          | literal | name | group => rfl
          | apply | signed | join => cases hl_atom
        omega
      have hne : l.text ++ (op.symbol ++ (r.text ++ rest)) ≠ [] :=
        List.append_ne_nil_of_left_ne_nil (text_ne_nil hl) _
      have hvia : l.readVia below = below l.text := by
        cases l with
        | literal | name | group => rfl
        | apply | signed | join => cases hl_atom
      rw [readChain_operand hne hl_none (by rw [hfirst]; exact hm)]
      simp [hfirst, hoperand, text_ne_nil hr, readVia, hvia, bind_assoc]
    | false =>
      rw [ihl hl_atom (.inr ⟨op, hm, hleft⟩) hlrest]
      simp [readChain_join hr hright hfollows hrest, readVia, bind_assoc]

end

theorem treeAs_false_signed (op : Binary) (p : Phrase) :
    (signed op p).treeAs false = .binary op .zero p.tree := by
  cases p with
  | literal | name | group | apply | signed | join => rfl

/-- What comes of a phrase is its tree, or the phrase has at least `least` levels and is too deep.
-/
def ReadsFrom (least : Nat) (p : Phrase) (t : Tree) (r : Except Failure Tree) : Prop :=
  r = .ok t ∨ least ≤ p.levels ∧ r = .error .tooDeep

/-- A chain is the tree of the phrase if its operands are. -/
theorem readVia_eq {below : List Char → Except Failure Tree} {n : Nat}
    (hbelow : ∀ q : Phrase, q.WellFormed → ReadsFrom n q q.tree (below q.text))
    {p : Phrase} (h : p.WellFormed) (hatom : p.isAtom = false) :
    ReadsFrom (n + 1) p (p.treeAs false) (p.readVia below) := by
  induction h with
  | literal | name | group => cases hatom
  | apply h =>
    rcases hbelow _ (.group h) with hread | ⟨hlevels, hread⟩
    · exact .inl (by rw [readVia, ← text, hread]; rfl)
    · exact .inr ⟨Nat.succ_le_succ hlevels, by rw [readVia, ← text, hread]; rfl⟩
  | signed _ h =>
    rcases hbelow _ h with hread | ⟨hlevels, hread⟩
    · exact .inl (by rw [readVia, hread, treeAs_false_signed]; rfl)
    · exact .inr ⟨Nat.succ_le_succ hlevels, by rw [readVia, hread]; rfl⟩
  | @join op l r hl hr _ _ _ ihl _ =>
    have hleft : l.readVia below = .ok (l.treeAs false) ∨
        n + 1 ≤ (if l.isAtom then l.levels + 1 else l.levels) ∧
          l.readVia below = .error .tooDeep := by
      cases l with
      | literal | name | group => exact (hbelow _ hl).imp_right (And.imp_left Nat.succ_le_succ)
      | apply | signed | join => exact ihl rfl
    rcases hleft with hleft | ⟨hlevels, hleft⟩
    · rcases hbelow _ hr with hright | ⟨hlevels, hright⟩
      · exact .inl (by rw [readVia, hleft, hright]; rfl)
      · exact .inr ⟨le_max_of_le_right (Nat.succ_le_succ hlevels),
          by rw [readVia, hleft, hright]; rfl⟩
    · exact .inr ⟨le_max_of_le_left hlevels, by rw [readVia, hleft]; rfl⟩

/-! ### What a phrase is not -/

theorem enclosed?_of_head? {s : List Char} (h : ∀ c ∈ s.head?, c ≠ '(') : enclosed? s = none := by
  unfold enclosed?
  split
  · exact absurd rfl (h '(' rfl)
  · rfl

theorem head?_symbol_ne (op : Operator) (s : List Char) :
    ∀ c ∈ (op.symbol ++ s).head?, c ≠ '(' := by
  rw [op.head?_symbol_append]
  rintro c hc rfl
  exact op.not_mem_symbol (by decide) (List.mem_of_head? hc)

def isGroup : Phrase → Bool
  | group _ => true
  | _ => false

/-- Only a group is enclosed in brackets, and only while nothing follows it. -/
theorem enclosed?_text_append {p : Phrase} (h : p.WellFormed) {s : List Char}
    (hs : p.isGroup = true → s ≠ []) : enclosed? (p.text ++ s) = none := by
  induction h generalizing s with
  | literal l =>
    refine enclosed?_of_head? ?_
    obtain ⟨d, t, heq⟩ := List.exists_cons_of_ne_nil (isMagnitude_ne_nil l.isMagnitude)
    rintro c hc rfl
    rw [text, heq] at hc
    obtain rfl : d = '(' := by simpa using hc
    refine not_mem_isMagnitude l.isMagnitude (c := '(') (by decide) (by decide) ?_
    rw [heq]
    exact List.mem_cons_self ..
  | name x =>
    refine enclosed?_of_head? ?_
    obtain ⟨d, t, heq⟩ := List.exists_cons_of_ne_nil (text_ne_nil (.name x))
    rintro c hc rfl
    rw [heq] at hc
    obtain rfl : d = '(' := by simpa using hc
    have hword : isWordChar '(' = true := by
      refine mem_isIdentifier x.isIdentifier ?_
      rw [show x.chars = _ from heq]
      exact List.mem_cons_self ..
    revert hword
    decide
  | group h => exact enclosed?_group_append (nested_text h) (hs rfl)
  | @apply op _ _ =>
    rw [text, List.append_assoc]
    exact enclosed?_of_head? (head?_symbol_ne (.unary op) _)
  | @signed op _ _ _ _ =>
    rw [text, List.append_assoc]
    exact enclosed?_of_head? (head?_symbol_ne (.binary op) _)
  | @join op _ _ _ _ _ _ _ ihl _ =>
    rw [text, List.append_assoc]
    refine ihl fun _ => ?_
    rw [List.append_assoc]
    exact List.append_ne_nil_of_left_ne_nil (Operator.binary op).symbol_ne_nil _

/-- A phrase that is no name and no number has an operator in it, or begins with a bracket. -/
theorem hasOperator_text {p : Phrase} (hatom : p.isAtom = false) : hasOperator p.text = true := by
  cases p with
  | literal | name | group => cases hatom
  | apply op p => exact @hasOperator_of_contains (.unary op) _ (List.prefix_append _ _).isInfix
  | signed op p => exact @hasOperator_of_contains (.binary op) _ (List.prefix_append _ _).isInfix
  | join op l r => exact @hasOperator_of_contains (.binary op) _ ⟨l.text, r.text, by simp [text]⟩

theorem isName_text {p : Phrase} (hatom : p.isAtom = false) : isName p.text = false := by
  rw [isName, hasOperator_text hatom, Bool.not_true, Bool.and_false]

/-- Behind the first character of a number there are digits, a point and a line end only. -/
theorem mem_tail_isNumber {d : Char} {s : List Char} (h : isNumber (d :: s) = true) {c : Char}
    (hc : c ∈ s) : isDigit c = true ∨ c = '.' ∨ c = '\n' := by
  have hne : s ≠ [] := List.ne_nil_of_mem hc
  rw [isNumber, withoutLineEnd_cons hne] at h
  rcases mem_withoutLineEnd hc with hmem | rfl
  · have hmem' : c ∈ (Decimal.splitSign (d :: withoutLineEnd s)).2 := by
      unfold Decimal.splitSign
      split
      · rename_i heq
        cases heq
        exact hmem
      · rename_i heq
        cases heq
        exact hmem
      · exact List.mem_cons_of_mem d hmem
    rcases mem_isMagnitude h hmem' with hd | rfl
    · exact .inl hd
    · exact .inr (.inl rfl)
  · exact .inr (.inr rfl)

/-- The first character of a symbol is none that a number has behind its first one. -/
theorem isNumber_of_symbol (op : Operator) {d : Char} {s t : List Char} :
    isNumber (d :: (s ++ (op.symbol ++ t))) = false := by
  by_contra h
  obtain ⟨c, u, hc⟩ := List.exists_cons_of_ne_nil op.symbol_ne_nil
  have hmem : c ∈ op.symbol := by
    rw [hc]
    exact List.mem_cons_self ..
  rcases mem_tail_isNumber (c := c) (by simpa using h) (by simp [hc]) with hd | rfl | rfl
  · rw [op.isDigit_head (c := c) (by rw [hc]; rfl)] at hd
    cases hd
  · exact op.not_mem_symbol (by decide) hmem
  · exact op.not_mem_symbol (by decide) hmem

/-- The numbers among the phrases are the literals and the literals with a sign. -/
theorem isNumber_text {p : Phrase} (h : p.WellFormed) (hatom : p.isAtom = false)
    (hsigned : ∀ op l, p ≠ signed op (literal l)) : isNumber p.text = false := by
  have hbracket : ∀ {s : List Char}, '(' ∈ s → isNumber s = false := by
    intro s hs
    by_contra hnumber
    have := mem_isNumber (by simpa using hnumber) hs
    revert this
    decide
  cases h with
  | literal | name | group => cases hatom
  | apply => exact hbracket (by simp [text, Tree.inBrackets])
  | @signed op p hop h _ =>
    obtain ⟨c, hc⟩ : ∃ c, op.symbol = [c] := by
      cases op <;> first | exact ⟨_, rfl⟩ | cases hop
    rw [text, hc, List.singleton_append]
    cases h with
    | literal l => exact absurd rfl (hsigned op l)
    | name x =>
      have hid := x.isIdentifier
      by_contra hnumber
      rcases hx : x.chars with _ | ⟨d, s⟩
      · rw [hx] at hid
        cases hid
      · rw [hx, isIdentifier, Bool.and_eq_true] at hid
        rw [text, hx] at hnumber
        rcases mem_tail_isNumber (c := d) (by simpa using hnumber) (by simp) with hd | rfl | rfl
        · rw [isDigit_of_isAsciiLetter hid.1] at hd
          cases hd
        · exact absurd hid.1 (by decide)
        · exact absurd hid.1 (by decide)
    | group => exact hbracket (by simp [text, Tree.inBrackets])
    | apply => exact hbracket (by simp [text, Tree.inBrackets])
    | @signed op' p _ _ _ => exact @isNumber_of_symbol (.binary op') c [] p.text
    | @join op' l r _ _ _ _ _ => exact @isNumber_of_symbol (.binary op') c l.text r.text
  | @join op l r hl _ _ _ _ =>
    obtain ⟨d, s, hs⟩ := List.exists_cons_of_ne_nil (text_ne_nil hl)
    rw [text, hs]
    exact @isNumber_of_symbol (.binary op) d s r.text

/-! ### Reading -/

theorem number?_literal (l : Literal) : number? l.chars = some l.value := by
  rw [number?, if_pos (isNumber_of_isMagnitude l.isMagnitude), l.ofText?_eq]

theorem number?_signed {op : Binary} (hop : op.isSign = true) (l : Literal) :
    number? (op.symbol ++ l.chars) = some (signedValue op l.value) := by
  cases op with
  | plus =>
    have h : isNumber ('+' :: l.chars) = true := isNumber_cons l.isMagnitude (.inl rfl)
    change number? ('+' :: l.chars) = _
    rw [number?, if_pos h, ofText?_cons_plus l.isMagnitude, l.ofText?_eq]
    rfl
  | minus =>
    have h : isNumber ('-' :: l.chars) = true := isNumber_cons l.isMagnitude (.inr rfl)
    change number? ('-' :: l.chars) = _
    rw [number?, if_pos h, ofText?_cons_minus l.isMagnitude, l.ofText?_eq]
    rfl
  | _ => cases hop

theorem isName_name (x : Name) : isName x.chars = true := by
  have hend : '\n' ∉ x.chars := by
    intro hmem
    have := mem_isIdentifier x.isIdentifier hmem
    revert this
    decide
  rw [isName, withoutLineEnd_of_not_mem hend, x.isIdentifier, x.hasOperator]
  rfl

/-- One step of the reader at a text that is neither empty nor enclosed nor a name. -/
theorem readLevels_succ {levels : Nat} {s : List Char} (hs : s ≠ [])
    (henclosed : enclosed? s = none) (hname : isName s = false) :
    readLevels (levels + 1) s =
      match number? s with
      | some a => .ok (.number a)
      | none => readChain (readLevels levels) s none s := by
  cases hnumber : number? s with
  | some a =>
    simp only [readLevels, List.isEmpty_iff, hs, ↓reduceIte, henclosed, hname, Bool.false_eq_true,
      hnumber]
  | none =>
    simp only [readLevels, List.isEmpty_iff, hs, ↓reduceIte, henclosed, hname, Bool.false_eq_true,
      hnumber]

theorem readLevels_name (x : Name) (levels : Nat) :
    readLevels (levels + 1) x.chars = .ok (.var (String.ofList x.chars)) := by
  have hne : x.chars ≠ [] := text_ne_nil (.name x)
  have henclosed : enclosed? (x.chars ++ []) = none :=
    enclosed?_text_append (.name x) fun h => by cases h
  rw [List.append_nil] at henclosed
  simp only [readLevels, List.isEmpty_iff, hne, ↓reduceIte, henclosed, isName_name x]

theorem readLevels_text {p : Phrase} (h : p.WellFormed) (levels : Nat) :
    ReadsFrom levels p p.tree (readLevels levels p.text) := by
  induction levels generalizing p with
  | zero => exact .inr ⟨Nat.zero_le _, rfl⟩
  | succ levels ih =>
    have hne := text_ne_nil h
    have henclosed : p.isGroup = false → enclosed? p.text = none := by
      intro hgroup
      have := enclosed?_text_append h (s := []) (by rw [hgroup]; exact fun h => by cases h)
      rwa [List.append_nil] at this
    cases hatom : p.isAtom with
    | true =>
      cases h with
      | literal l =>
        have hname := isName_of_isNumber (isNumber_of_isMagnitude l.isMagnitude)
        have hnumber : number? (literal l).text = some l.value := number?_literal l
        rw [readLevels_succ hne (henclosed rfl) hname, hnumber]
        exact .inl rfl
      | name x => exact .inl (readLevels_name x levels)
      | group h =>
        have hinner := enclosed?_inBrackets (nested_text h)
        rw [text] at hne
        simp only [text, readLevels, List.isEmpty_iff, hne, ↓reduceIte, hinner]
        exact (ih h).imp_right (And.imp_left Nat.succ_le_succ)
      | apply | signed | join => cases hatom
    | false =>
      have hgroup : p.isGroup = false := by
        cases p with
        | group => cases hatom
        | literal | name | apply | signed | join => rfl
      rw [readLevels_succ hne (henclosed hgroup) (isName_text hatom)]
      by_cases hsigned : ∃ op l, p = signed op (literal l)
      · obtain ⟨op, l, rfl⟩ := hsigned
        cases h with
        | signed hop _ _ =>
          have hnumber : number? (signed op (literal l)).text = some (signedValue op l.value) :=
            number?_signed hop l
          rw [hnumber]
          exact .inl rfl
      · have hnumber : number? p.text = none := by
          rw [number?, isNumber_text h hatom fun op l heq => hsigned ⟨op, l, heq⟩]
          rfl
        have htree : p.tree = p.treeAs false := by
          cases p with
          | signed op p =>
            rw [treeAs_false_signed]
            cases p with
            | literal l => exact absurd ⟨op, l, rfl⟩ hsigned
            | name | group | apply | signed | join => rfl
          | literal | name | group | apply | join => rfl
        have hchain := @readChain_text (readLevels levels) p.text p h hatom [] (.inl rfl)
          (fun _ c hc => by cases hc)
        rw [List.append_nil] at hchain
        rw [hnumber, hchain, htree]
        rcases readVia_eq (fun q hq => ih hq) h hatom with hvia | ⟨hlevels, hvia⟩
        · exact .inl (by rw [hvia]; exact readChain_some_nil _)
        · exact .inr ⟨hlevels, by rw [hvia]; rfl⟩

theorem read_text {p : Phrase} (h : p.WellFormed) :
    read p.text = .ok p.tree ∨ read p.text = .error .tooDeep :=
  (readLevels_text h _).imp_right And.right

theorem readLevels_text_of_lt {p : Phrase} (h : p.WellFormed) {levels : Nat}
    (hlevels : p.levels < levels) : readLevels levels p.text = .ok p.tree :=
  (readLevels_text h levels).resolve_right fun hdeep => Nat.not_le.mpr hlevels hdeep.1

/-- A phrase is read as its tree or not at all. -/
theorem eq_tree_of_readLevels {p : Phrase} (h : p.WellFormed) {levels : Nat} {t : Tree}
    (ht : readLevels levels p.text = .ok t) : t = p.tree := by
  rcases readLevels_text h levels with hread | ⟨-, hdeep⟩
  · exact Except.ok.inj (ht.symm.trans hread)
  · rw [hdeep] at ht
    cases ht

end Phrase

end Reckon.Formula
