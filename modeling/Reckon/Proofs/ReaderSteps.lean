import Mathlib.Data.List.Infix
import Reckon.Proofs.Brackets
import Reckon.Proofs.LongestMatch
import Reckon.Proofs.Results

/-!
# The steps of the reader

What `argumentFrom` and `readChain` do at the beginning of a text: at a pair of brackets, at a
character that begins no operator, at an operator. What the reader makes of a text within so many
levels it makes of it within more (`stopsOrIs_readLevels`).
-/

namespace Reckon.Formula

/-! ### Cutting an operand -/

section
variable {op : Option Operator} {taken : List Char}

@[simp] theorem argumentFrom_nil : argumentFrom op taken [] = (taken.reverse, []) := by
  rw [argumentFrom]

theorem argumentFrom_inBrackets {s : List Char} (h : Nested s) (rest : List Char) :
    argumentFrom op taken (Tree.inBrackets s ++ rest) =
      argumentFrom op ((Tree.inBrackets s).reverse ++ taken) rest := by
  have hk : closing? ('(' :: (s ++ ')' :: rest)) = some (s.length + 1) := closing?_group h rest
  have htake : (s ++ ')' :: rest).take (s.length + 1) = s ++ [')'] := by
    simp [List.take_append]
  have hdrop : (s ++ ')' :: rest).drop (s.length + 1) = rest := by
    simp [List.drop_append]
  simp only [Tree.inBrackets, List.cons_append, List.append_assoc, List.nil_append]
  rw [argumentFrom]
  simp only [↓reduceIte, hk, Option.getD_some, htake, hdrop]

theorem argumentFrom_cons {c : Char} {s : List Char} (hc : c ≠ '(')
    (hm : Operator.longestMatch (c :: s) = none) :
    argumentFrom op taken (c :: s) = argumentFrom op (c :: taken) s := by
  rw [argumentFrom]
  simp only [hc, ↓reduceIte]
  split
  · rfl
  · rename_i h; rw [hm] at h; cases h

theorem eq_cons_of_longestMatch {s : List Char} {next : Operator}
    (h : Operator.longestMatch s = some next) : ∃ c rest, s = c :: rest ∧ c ≠ '(' := by
  obtain ⟨t, rfl⟩ := Operator.symbol_prefix_of_longestMatch h
  cases hs : next.symbol with
  | nil => exact absurd hs next.symbol_ne_nil
  | cons c rest =>
    refine ⟨c, rest ++ t, rfl, ?_⟩
    rintro rfl
    exact next.not_mem_symbol (c := '(') (by simp) (by simp [hs])

/-- The operator that ends the operand. -/
theorem argumentFrom_stop {s : List Char} {next : Operator}
    (hm : Operator.longestMatch s = some next) (htaken : taken ≠ [])
    (hback : isBinaryOperator (backTrack taken) = false) (hend : endsOperandOf op next = true) :
    argumentFrom op taken s = (taken.reverse, s) := by
  obtain ⟨c, rest, rfl, hc⟩ := eq_cons_of_longestMatch hm
  rw [argumentFrom]
  simp only [hc, ↓reduceIte]
  split
  · rename_i h; rw [hm] at h; cases h
  · rename_i next' h
    rw [hm] at h; cases h
    simp [htaken, hback, hend]

/-- An operator that belongs to the operand. -/
theorem argumentFrom_operator {s : List Char} {next : Operator}
    (hm : Operator.longestMatch (next.symbol ++ s) = some next)
    (h : taken = [] ∨ isBinaryOperator (backTrack taken) = true ∨ endsOperandOf op next = false) :
    argumentFrom op taken (next.symbol ++ s) =
      argumentFrom op (next.symbol.reverse ++ taken) s := by
  obtain ⟨c, rest, heq, hc⟩ := eq_cons_of_longestMatch hm
  rw [heq, argumentFrom]
  simp only [hc, ↓reduceIte]
  split
  · rename_i h'; rw [← heq, hm] at h'; cases h'
  · rename_i next' h'
    rw [← heq, hm] at h'; cases h'
    have hstay : (!taken.isEmpty && !isBinaryOperator (backTrack taken) &&
        endsOperandOf op next) = false := by
      rcases h with rfl | h | h
      · rfl
      · simp [h]
      · simp [h]
    rw [if_neg (by simp [hstay]), ← heq, List.drop_left]

theorem argumentFrom_append (op : Option Operator) (taken s : List Char) :
    (argumentFrom op taken s).1 ++ (argumentFrom op taken s).2 = taken.reverse ++ s := by
  fun_induction argumentFrom op taken s with
  | case1 taken => simp
  | case2 taken rest k ih => simpa using ih
  | case3 taken c rest hc hm ih => simpa using ih
  | case4 taken c rest hc next hm hend => rfl
  | case5 taken c rest hc next hm hend ih =>
    rw [ih, List.reverse_append, List.reverse_reverse, List.append_assoc,
      ← Operator.eq_append_of_longestMatch hm]

/-- The operand and the text behind it are the text. -/
theorem argument_append (op : Option Operator) (s : List Char) :
    (argument op s).1 ++ (argument op s).2 = s :=
  argumentFrom_append op [] s

end

/-! ### Reading a chain -/

section
variable {below : List Char → Except Failure Tree} {whole s : List Char}

@[simp] theorem readChain_some_nil (t : Tree) : readChain below whole (some t) [] = .ok t := by
  rw [readChain]

/-- At a binary operator its right operand is read. In front of the first operand only a sign may
stand. -/
theorem readChain_binary {op : Binary} (hm : Operator.longestMatch s = some (.binary op))
    (tree : Option Tree) :
    readChain below whole tree s =
      let operand := argument (some (.binary op)) (s.drop op.symbol.length)
      if operand.1.isEmpty || (tree.isNone && !op.isSign) then
        .error (.malformed (.operandCount op.name))
      else below operand.1 >>= fun right =>
        readChain below whole (some (.binary op (tree.getD .zero) right)) operand.2 := by
  obtain ⟨c, rest, rfl, -⟩ := eq_cons_of_longestMatch hm
  rw [readChain]
  split
  · rename_i h; rw [hm] at h; cases h
  · rename_i op' h
    rw [hm] at h; cases h
    rfl
  · rename_i h; rw [hm] at h; cases h

/-- A unary operator with its operand stands at the beginning. -/
theorem readChain_unary {op : Unary} (hm : Operator.longestMatch s = some (.unary op))
    (tree : Option Tree) :
    readChain below whole tree s =
      let operand := argument (some (.unary op)) (s.drop op.symbol.length)
      if operand.1.isEmpty then .error (.malformed (.operandCount op.name))
      else if tree.isSome then .error (.malformed (.operandBeforeUnary op.name))
      else below operand.1 >>= fun operandTree =>
        readChain below whole (some (.unary op operandTree)) operand.2 := by
  obtain ⟨c, rest, rfl, -⟩ := eq_cons_of_longestMatch hm
  rw [readChain]
  split
  · rename_i h; rw [hm] at h; cases h
  · rename_i h; rw [hm] at h; cases h
  · rename_i op' h
    rw [hm] at h; cases h
    rfl

/-- At the first operand, that of the binary operator behind it is read as well. -/
theorem readChain_operand (hs : s ≠ []) (hm : Operator.longestMatch s = none) {op : Binary}
    (hop : Operator.longestMatch (argument none s).2 = some (.binary op)) :
    readChain below whole none s =
      let first := argument none s
      let second := argument (some (.binary op)) (first.2.drop op.symbol.length)
      if second.1.isEmpty then .error (.malformed (.operandCount op.name))
      else below first.1 >>= fun left => below second.1 >>= fun right =>
        readChain below whole (some (.binary op left right)) second.2 := by
  obtain ⟨c, rest, rfl⟩ := List.exists_cons_of_ne_nil hs
  rw [readChain]
  split
  · simp only [Option.isSome_none, Bool.false_eq_true, ↓reduceIte]
    split
    · rename_i h; rw [hop] at h; cases h
    · rename_i h; rw [hop] at h; cases h
    · rename_i h
      rw [hop] at h; cases h
      rfl
  · rename_i h; rw [hm] at h; cases h
  · rename_i h; rw [hm] at h; cases h

/-- Where no operator begins only a first operand with a binary operator behind it can be read. -/
theorem exists_of_readChain_operand (hs : s ≠ []) (hm : Operator.longestMatch s = none)
    {tree : Option Tree} {t : Tree} (h : readChain below whole tree s = .ok t) :
    tree = none ∧ ∃ op : Binary,
      Operator.longestMatch (argument none s).2 = some (.binary op) := by
  obtain ⟨c, rest, rfl⟩ := List.exists_cons_of_ne_nil hs
  rw [readChain] at h
  split at h
  · split at h
    · cases h
    · rename_i htree
      refine ⟨by simpa using htree, ?_⟩
      simp only at h
      split at h
      · cases h
      · cases h
      · rename_i op hop
        exact ⟨op, hop⟩
  · rename_i h'; rw [hm] at h'; cases h'
  · rename_i h'; rw [hm] at h'; cases h'

/-! What a chain did that was read: the text it began with, and the chain behind it. -/

theorem exists_of_readChain_binary {op : Binary} (hm : Operator.longestMatch s = some (.binary op))
    {tree : Option Tree} {t : Tree} (h : readChain below whole tree s = .ok t) :
    ∃ u v right, s = op.symbol ++ (u ++ v) ∧ v.length < s.length ∧
      (tree = none → op.isSign = true) ∧ below u = .ok right ∧
      readChain below whole (some (.binary op (tree.getD .zero) right)) v = .ok t := by
  have hoperand := argument_append (some (.binary op)) (s.drop op.symbol.length)
  rw [readChain_binary hm] at h
  simp only at h
  split at h
  · cases h
  · rename_i hsign
    obtain ⟨right, hright, h⟩ := bind_eq_ok_iff.mp h
    refine ⟨_, _, right, ?_, ?_, ?_, hright, h⟩
    · rw [hoperand]
      exact Operator.eq_append_of_longestMatch hm
    · exact length_argument_drop_lt hm _
    · rintro rfl
      simp only [Option.isNone_none, Bool.true_and, Bool.or_eq_true, not_or] at hsign
      simpa using hsign.2

theorem exists_of_readChain_unary {op : Unary} (hm : Operator.longestMatch s = some (.unary op))
    {tree : Option Tree} {t : Tree} (h : readChain below whole tree s = .ok t) :
    ∃ u v operand, s = op.symbol ++ (u ++ v) ∧ v.length < s.length ∧ tree = none ∧
      below u = .ok operand ∧ readChain below whole (some (.unary op operand)) v = .ok t := by
  have hoperand := argument_append (some (.unary op)) (s.drop op.symbol.length)
  rw [readChain_unary hm] at h
  simp only at h
  split at h
  · cases h
  split at h
  · cases h
  · rename_i htree
    obtain ⟨operand, hread, h⟩ := bind_eq_ok_iff.mp h
    refine ⟨_, _, operand, ?_, ?_, by simpa using htree, hread, h⟩
    · rw [hoperand]
      exact Operator.eq_append_of_longestMatch hm
    · exact length_argument_drop_lt hm _

/-- Behind an operand a chain goes on with a binary operator. -/
theorem exists_of_readChain_some (hs : s ≠ []) {first t : Tree}
    (h : readChain below whole (some first) s = .ok t) :
    ∃ op : Binary, Operator.longestMatch s = some (.binary op) := by
  rcases hm : Operator.longestMatch s with _ | op | op
  case none => exact absurd (exists_of_readChain_operand hs hm h).1 (Option.some_ne_none first)
  case some.unary =>
    obtain ⟨-, -, -, -, -, hnone, -⟩ := exists_of_readChain_unary hm h
    exact absurd hnone (Option.some_ne_none first)
  case some.binary => exact ⟨op, rfl⟩

theorem exists_of_readChain_operands (hs : s ≠ []) (hm : Operator.longestMatch s = none)
    {tree : Option Tree} {t : Tree} (h : readChain below whole tree s = .ok t) :
    ∃ (op : Binary) (u u' v : List Char) (left right : Tree),
      s = u ++ (op.symbol ++ (u' ++ v)) ∧ v.length < s.length ∧ tree = none ∧
      below u = .ok left ∧ below u' = .ok right ∧
      readChain below whole (some (.binary op left right)) v = .ok t := by
  obtain ⟨rfl, op, hop⟩ := exists_of_readChain_operand hs hm h
  have hfirst := argument_append none s
  have hsecond := argument_append (some (.binary op)) ((argument none s).2.drop op.symbol.length)
  rw [readChain_operand hs hm hop] at h
  simp only at h
  split at h
  · cases h
  · obtain ⟨left, hleft, h⟩ := bind_eq_ok_iff.mp h
    obtain ⟨right, hright, h⟩ := bind_eq_ok_iff.mp h
    refine ⟨op, _, _, _, left, right, ?_, ?_, rfl, hleft, hright, h⟩
    · have heq := Operator.eq_append_of_longestMatch hop
      rw [Operator.symbol_binary] at heq
      rw [hsecond, ← heq, hfirst]
    · exact Nat.lt_of_lt_of_le (length_argument_drop_lt hop _) (length_argument_le none s)

end

/-! ### Chains that are read -/

section
variable {below : List Char → Except Failure Tree} {whole s : List Char} {tree : Option Tree}
  {t : Tree}

theorem readChain_binary_eq_ok_iff {op : Binary}
    (hm : Operator.longestMatch (op.symbol ++ s) = some (.binary op)) :
    readChain below whole tree (op.symbol ++ s) = .ok t ↔
      (argument (some (.binary op)) s).1 ≠ [] ∧ (tree = none → op.isSign = true) ∧
        ∃ right, below (argument (some (.binary op)) s).1 = .ok right ∧
          readChain below whole (some (.binary op (tree.getD .zero) right))
            (argument (some (.binary op)) s).2 = .ok t := by
  rw [readChain_binary hm]
  simp only [List.drop_left]
  split
  · rename_i hbad
    refine iff_of_false (by rintro ⟨⟩) ?_
    rintro ⟨hne, hsign, -⟩
    cases tree with
    | none => simp [hne, hsign rfl] at hbad
    | some first => simp [hne] at hbad
  · rename_i hgood
    rw [bind_eq_ok_iff]
    simp only [Bool.or_eq_true, Bool.and_eq_true, List.isEmpty_iff, not_or,
      Option.isNone_iff_eq_none, Bool.not_eq_eq_eq_not, Bool.not_true, not_and,
      Bool.not_eq_false] at hgood
    exact ⟨fun h => ⟨hgood.1, hgood.2, h⟩, fun h => h.2.2⟩

theorem readChain_unary_eq_ok_iff {op : Unary}
    (hm : Operator.longestMatch (op.symbol ++ s) = some (.unary op)) :
    readChain below whole tree (op.symbol ++ s) = .ok t ↔
      (argument (some (.unary op)) s).1 ≠ [] ∧ tree = none ∧
        ∃ a, below (argument (some (.unary op)) s).1 = .ok a ∧
          readChain below whole (some (.unary op a)) (argument (some (.unary op)) s).2 = .ok t := by
  rw [readChain_unary hm]
  simp only [List.drop_left]
  split
  · rename_i hempty
    exact iff_of_false (by rintro ⟨⟩) fun h => h.1 (List.isEmpty_iff.mp hempty)
  split
  · rename_i hsome
    refine iff_of_false (by rintro ⟨⟩) ?_
    rintro ⟨-, rfl, -⟩
    cases hsome
  · rename_i hne hnone
    rw [bind_eq_ok_iff]
    exact ⟨fun h => ⟨by simpa using hne, by simpa using hnone, h⟩, fun h => h.2.2⟩

/-- Behind a first operand the chain goes on as behind any other. -/
theorem readChain_operand_eq_ok_iff (hs : s ≠ []) (hm : Operator.longestMatch s = none) :
    readChain below whole tree s = .ok t ↔
      tree = none ∧ (argument none s).2 ≠ [] ∧
        ∃ left, below (argument none s).1 = .ok left ∧
          readChain below whole (some left) (argument none s).2 = .ok t := by
  have hsome : ∀ {op : Binary} (left : Tree),
      Operator.longestMatch (argument none s).2 = some (.binary op) →
        readChain below whole (some left) (argument none s).2 =
          let second := argument (some (.binary op)) ((argument none s).2.drop op.symbol.length)
          if second.1.isEmpty then .error (.malformed (.operandCount op.name))
          else below second.1 >>= fun right =>
            readChain below whole (some (.binary op left right)) second.2 := by
    intro op left hop
    rw [readChain_binary hop]
    simp only [Option.isNone_some, Bool.false_and, Bool.or_false, Option.getD_some]
  constructor
  · intro h
    obtain ⟨rfl, op, hop⟩ := exists_of_readChain_operand hs hm h
    have hne : (argument none s).2 ≠ [] := by
      intro hnil
      rw [hnil] at hop
      cases hop
    rw [readChain_operand hs hm hop] at h
    simp only at h
    split at h
    · cases h
    rename_i hsecond
    obtain ⟨left, hleft, h⟩ := bind_eq_ok_iff.mp h
    refine ⟨rfl, hne, left, hleft, ?_⟩
    rw [hsome left hop]
    simp only
    rwa [if_neg hsecond]
  · rintro ⟨rfl, hne, left, hleft, h⟩
    obtain ⟨op, hop⟩ := exists_of_readChain_some hne h
    rw [hsome left hop] at h
    simp only at h
    split at h
    · cases h
    rename_i hsecond
    rw [readChain_operand hs hm hop]
    simp only
    rw [if_neg hsecond, hleft]
    exact h

end

theorem readLevels_of_enclosed? {levels : Nat} {s inner : List Char}
    (h : enclosed? s = some inner) :
    readLevels (levels + 1) s = readLevels levels inner := by
  have hne : s ≠ [] := by
    rintro rfl
    cases h
  simp only [readLevels, List.isEmpty_iff, hne, ↓reduceIte, h]

/-! ### With fewer levels -/

section
variable {below below' : List Char → Except Failure Tree}

theorem stopsOrIs_readChain (hbelow : ∀ s, StopsOrIs (below s) (below' s)) (whole : List Char)
    (tree : Option Tree) (s : List Char) :
    StopsOrIs (readChain below whole tree s) (readChain below' whole tree s) := by
  fun_induction readChain below whole tree s with
  | case1 => exact .inr (readChain_some_nil _).symm
  | case2 =>
    rw [readChain]
    exact .inr rfl
  | case3 tree c s hm htree =>
    right
    rw [readChain]
    split <;> simp_all
  | case4 tree c s hm htree first hfirst | case5 tree c s hm htree first f hfirst =>
    right
    rw [readChain]
    split
    · rw [if_neg htree]
      simp only [first] at hfirst ⊢
      split <;> simp_all
    · simp_all
    · simp_all
  | case6 tree c s hm htree first op hop second hsecond =>
    obtain rfl : tree = none := by simpa using htree
    rw [readChain_operand (List.cons_ne_nil c s) hm hop]
    simp only [second, first] at hsecond ⊢
    rw [if_pos hsecond]
    exact .inr rfl
  | case7 tree c s hm htree first op hop second hsecond ih =>
    obtain rfl : tree = none := by simpa using htree
    rw [readChain_operand (List.cons_ne_nil c s) hm hop]
    simp only [second, first] at hsecond ⊢
    rw [if_neg hsecond]
    exact (hbelow _).bind fun left => (hbelow _).bind fun right => ih left right
  | case8 tree c s op hm operand h =>
    rw [readChain_binary hm]
    simp only [operand] at h ⊢
    rw [if_pos h]
    exact .inr rfl
  | case9 tree c s op hm operand h ih =>
    rw [readChain_binary hm]
    simp only [operand] at h ⊢
    rw [if_neg h]
    exact (hbelow _).bind ih
  | case10 tree c s op hm operand h =>
    rw [readChain_unary hm]
    simp only [operand] at h ⊢
    rw [if_pos h]
    exact .inr rfl
  | case11 tree c s op hm operand h htree =>
    rw [readChain_unary hm]
    simp only [operand] at h ⊢
    rw [if_neg h, if_pos htree]
    exact .inr rfl
  | case12 tree c s op hm operand h htree ih =>
    rw [readChain_unary hm]
    simp only [operand] at h ⊢
    rw [if_neg h, if_neg htree]
    exact (hbelow _).bind ih

/-- With fewer levels a text is read as the same tree, or found too deep. -/
theorem stopsOrIs_readLevels {levels levels' : Nat} (hle : levels ≤ levels') (s : List Char) :
    StopsOrIs (readLevels levels s) (readLevels levels' s) := by
  induction levels generalizing levels' s with
  | zero => exact .inl rfl
  | succ levels ih =>
    obtain ⟨levels', rfl⟩ := Nat.exists_eq_add_of_le' (Nat.one_le_of_lt hle)
    have hbelow := fun s => ih (Nat.le_of_succ_le_succ hle) s
    rw [readLevels, readLevels]
    split
    · exact .inr rfl
    split
    · exact hbelow _
    split
    · exact .inr rfl
    split
    · exact .inr rfl
    · exact stopsOrIs_readChain hbelow s none s

theorem stopsOrIs_readLevels_succ {levels : Nat} {s : List Char} {t : Tree}
    (h : readLevels (levels + 1) s = .ok t) : StopsOrIs (readLevels levels s) (.ok t) := by
  rw [← h]
  exact stopsOrIs_readLevels (Nat.le_succ levels) s

/-- What is read is read within more levels as well. -/
theorem readLevels_of_le {levels levels' : Nat} (hle : levels ≤ levels') {s : List Char} {t : Tree}
    (h : readLevels levels s = .ok t) : readLevels levels' s = .ok t :=
  (stopsOrIs_readLevels hle s).of_ok h

end

end Reckon.Formula
