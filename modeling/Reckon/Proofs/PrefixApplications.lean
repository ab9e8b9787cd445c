import Reckon.Proofs.Spelling
import Reckon.Proofs.Tokens
import Reckon.Proofs.Unlimited

/-!
# Prefix applications as operands

A text `u t` that is read as the application of the unary operator `u` may itself be an operand.
It is read in the same way there, unless the search for the end of the operand stops right behind
the symbol of `u`: it does so when `t` begins with an operator that does not bind tighter than the
one in front (`cutsOperand`). Then `u` is left without an operand and nothing is read
(`read_prefix_operand`). So `!!x` is read and `!!!x` is not, `sin-x` is read and `a*sin-x` is not.

What is behind the symbol of `u` was an operand before. Whatever let the search for its end run over
all of it lets another search run over it as well, once that is past the first operator
(`argumentFrom_append_before`); and where no operator begins, the operand is a single one that every
search runs over (`argumentFrom_of_readLevels`).
-/

namespace Reckon.Formula

open Reckon.Text

/-! ### Searches that run over the same text -/

section
variable {p q : Option Operator} {taken before s : List Char}

/-- A search that stops at fewer operators runs over what another one runs over, also when more
stands in front. -/
theorem argumentFrom_append_before
    (hends : ∀ next, endsOperandOf q next = true → endsOperandOf p next = true)
    (hbefore : taken = [] → before = []) :
    argumentFrom q (taken ++ before) s =
      argumentFrom q ((argumentFrom p taken s).1.reverse ++ before) (argumentFrom p taken s).2 := by
  fun_induction argumentFrom p taken s with
  | case1 taken => rw [List.reverse_reverse]
  | case2 taken rest k ih =>
    rw [List.append_assoc] at ih
    rw [argumentFrom, if_pos rfl]
    exact ih fun h => by simp at h
  | case3 taken c rest hc hm ih =>
    rw [argumentFrom_cons hc hm, ← List.cons_append]
    exact ih fun h => by cases h
  | case4 taken c rest hc next hm hstop => rw [List.reverse_reverse]
  | case5 taken c rest hc next hm hgo ih =>
    have hrest := Operator.eq_append_of_longestMatch hm
    -- what lets the first search go on lets the second one go on as well
    have hgo : taken ++ before = [] ∨ isBinaryOperator (backTrack (taken ++ before)) = true ∨
        endsOperandOf q next = false := by
      by_cases htaken : taken = []
      · exact .inl (by rw [htaken, hbefore htaken]; rfl)
      cases hback : isBinaryOperator (backTrack taken) with
      | true =>
        obtain ⟨b, hb⟩ := isBinaryOperator_backTrack_iff.mp hback
        exact .inr (.inl (isBinaryOperator_backTrack_iff.mpr ⟨b, hb.trans (List.prefix_append ..)⟩))
      | false =>
        have hp : endsOperandOf p next = false := by simpa [htaken, hback] using hgo
        refine .inr (.inr ?_)
        by_contra hq
        rw [hends next (by simpa using hq)] at hp
        cases hp
    rw [hrest] at hm
    conv_lhs => rw [hrest]
    rw [argumentFrom_operator hm hgo, ← List.append_assoc]
    exact ih fun h => absurd (List.append_eq_nil_iff.mp h).1 (by simp [next.symbol_ne_nil])

/-- Where a search stops, something has been taken and it does not end with a binary operator. -/
theorem argumentFrom_ne_nil (h : (argumentFrom p taken s).2 ≠ []) :
    (argumentFrom p taken s).1 ≠ [] ∧
      isBinaryOperator (backTrack (argumentFrom p taken s).1.reverse) = false := by
  fun_induction argumentFrom p taken s with
  | case1 => exact absurd rfl h
  | case2 _ _ _ ih => exact ih h
  | case3 _ _ _ _ _ ih => exact ih h
  | case4 taken c rest hc next hm hstop =>
    simp only [Bool.and_eq_true, Bool.not_eq_true', List.isEmpty_eq_false_iff] at hstop
    refine ⟨by simpa using hstop.1.1, by simpa using hstop.1.2⟩
  | case5 _ _ _ _ _ _ _ ih => exact ih h

/-- A search runs over a text in which there are no operators and no brackets. -/
theorem argumentFrom_of_not_infix (hs : ∀ c ∈ s, isBracket c = false)
    (hop : ∀ op : Operator, ¬op.symbol <:+: s) :
    argumentFrom q taken s = (taken.reverse ++ s, []) := by
  have hopen : ∀ c ∈ s, c ≠ '(' := by
    rintro c hc rfl
    exact absurd (hs _ hc) (by decide)
  have hnone : ∀ v, v <:+ s → v ≠ [] → Operator.longestMatch (v ++ []) = none := by
    intro v hv _
    rw [List.append_nil, Operator.longestMatch_eq_none_iff]
    exact fun op hp => hop op (hp.isInfix.trans hv.isInfix)
  have := @argumentFrom_plain q taken s [] hopen hnone
  rw [List.append_nil, argumentFrom_nil] at this
  rw [this]
  simp

end

/-! ### Texts that are read -/

section
variable {below : List Char → Except Failure Tree} {whole t : List Char} {u : Unary} {a : Tree}
  {levels : Nat}

/-- A chain that goes on becomes the tree of a binary operator. -/
theorem eq_binary_of_readChain {s : List Char} {first tree : Tree}
    (h : readChain below whole (some first) s = .ok tree) :
    s = [] ∧ tree = first ∨ ∃ op l r, tree = .binary op l r := by
  by_cases hs : s = []
  · subst hs
    rw [readChain_some_nil] at h
    cases h
    exact .inl ⟨rfl, rfl⟩
  obtain ⟨op, hm⟩ := exists_of_readChain_some hs h
  obtain ⟨-, v, right, -, hlt, -, -, h⟩ := exists_of_readChain_binary hm h
  rcases eq_binary_of_readChain h with ⟨-, rfl⟩ | hbinary
  · exact .inr ⟨op, _, right, rfl⟩
  · exact .inr hbinary
termination_by s.length

/-- A text is none of the simple ones if an operator stands behind its first character. -/
theorem readLevels_of_symbol (op : Operator) {d : Char} {v : List Char} (hd : d ≠ '(') :
    readLevels (levels + 1) (d :: (v ++ (op.symbol ++ t))) =
      readChain (readLevels levels) (d :: (v ++ (op.symbol ++ t))) none
        (d :: (v ++ (op.symbol ++ t))) := by
  have henclosed : enclosed? (d :: (v ++ (op.symbol ++ t))) = none := by
    refine Phrase.enclosed?_of_head? ?_
    rintro c hc rfl
    exact hd (Option.some.inj hc)
  have hname : isName (d :: (v ++ (op.symbol ++ t))) = false :=
    @isName_of_contains op _ ⟨d :: v, t, by simp⟩
  rw [Phrase.readLevels_succ (List.cons_ne_nil _ _) henclosed hname, number?,
    if_neg (by simp [Phrase.isNumber_of_symbol])]

/-- What was read as the application of `u` is its symbol, and an operand of it up to the end. -/
theorem exists_of_readLevels_unary
    (h : readLevels (levels + 1) (u.symbol ++ t) = .ok (.unary u a)) :
    Operator.longestMatch (u.symbol ++ t) = some (.unary u) ∧
      argument (some (.unary u)) t = (t, []) ∧ readLevels levels t = .ok a := by
  have hne : u.symbol ++ t ≠ [] :=
    List.append_ne_nil_of_left_ne_nil (Operator.unary u).symbol_ne_nil t
  have henclosed := Phrase.enclosed?_of_head? (Phrase.head?_symbol_ne (.unary u) t)
  have hname : isName (u.symbol ++ t) = false :=
    @isName_of_contains (.unary u) _ (List.prefix_append _ _).isInfix
  rw [Operator.symbol_unary] at henclosed
  rw [Phrase.readLevels_succ hne henclosed hname] at h
  split at h
  · cases h
  rcases hm : Operator.longestMatch (u.symbol ++ t) with _ | w | op
  case none =>
    exact absurd (List.prefix_append _ _) (Operator.longestMatch_eq_none_iff.mp hm (.unary u))
  case some.binary =>
    obtain ⟨_, _, _, -, -, -, -, h⟩ := exists_of_readChain_binary hm h
    rcases eq_binary_of_readChain h with ⟨-, h⟩ | ⟨_, _, _, h⟩
    · cases h
    · cases h
  case some.unary =>
    have hoperand := argument_append (some (.unary w)) ((u.symbol ++ t).drop w.symbol.length)
    rw [readChain_unary hm] at h
    simp only at h
    split at h
    · cases h
    split at h
    · cases h
    obtain ⟨operand, hread, h⟩ := bind_eq_ok_iff.mp h
    rcases eq_binary_of_readChain h with ⟨hend, h⟩ | ⟨_, _, _, h⟩
    · cases h
      rw [List.drop_left] at hoperand hread hend
      rw [hend, List.append_nil] at hoperand
      rw [hoperand] at hread
      exact ⟨rfl, Prod.ext hoperand hend, hread⟩
    · cases h

/-- An operand that is not a chain is one of every operator, whatever stands in front. -/
theorem argumentFrom_of_readLevels (hread : readLevels levels t = .ok a)
    (hm : Operator.longestMatch t = none) (hu : argument (some (.unary u)) t = (t, []))
    (q : Option Operator) (taken : List Char) :
    argumentFrom q taken t = (taken.reverse ++ t, []) := by
  cases levels with
  | zero => cases hread
  | succ levels =>
  rw [readLevels] at hread
  split at hread
  · cases hread
  rename_i hne
  split at hread
  · rename_i inner henclosed
    rcases eq_of_enclosed? henclosed with rfl | rfl
    · have hnested := (spells_of_readLevels hread).nested
      have := @argumentFrom_inBrackets q taken inner hnested []
      rw [List.append_nil, argumentFrom_nil] at this
      rw [this]
      simp
    · cases levels <;> cases hread
  split at hread
  · rename_i hname
    refine argumentFrom_of_not_infix (isBracket_of_isName hname) fun op hop => ?_
    rw [isName_of_contains hop] at hname
    cases hname
  split at hread
  · rename_i hnumber
    have hnumber := isNumber_of_number? hnumber
    refine argumentFrom_of_not_infix (isBracket_of_isNumber hnumber) fun op hop => ?_
    -- the symbol would begin the text, or stand behind its first character
    obtain ⟨v, w, rfl⟩ := hop
    cases v with
    | nil => exact Operator.longestMatch_eq_none_iff.mp hm op ⟨w, by simp⟩
    | cons d v =>
      rw [List.cons_append, List.cons_append, List.append_assoc, Phrase.isNumber_of_symbol]
        at hnumber
      cases hnumber
  · -- in a chain the first operand ends in front of a binary operator, and that of `u` as well
    have hne : t ≠ [] := by simpa using hne
    obtain ⟨-, op, hop⟩ := exists_of_readChain_operand hne hm hread
    have hrest : (argument none t).2 ≠ [] := by
      intro hnil
      rw [hnil] at hop
      cases hop
    rw [argument] at hop hrest
    obtain ⟨htaken, hback⟩ := argumentFrom_ne_nil hrest
    have hover := @argumentFrom_append_before none (some (.unary u)) [] [] t (fun _ _ => rfl)
      fun _ => rfl
    have hend : endsOperandOf (some (.unary u)) (.binary op) = true :=
      decide_eq_true ((unary_rank u).2.trans ((by decide : 2 ≤ 3).trans (three_le_rank op)))
    rw [List.append_nil, List.append_nil] at hover
    rw [argument, hover, argumentFrom_stop hop (by simpa using htaken) hback hend] at hu
    exact absurd (Prod.ext_iff.mp hu).2 hrest

end

/-! ### The operand behind another operator -/

/-- Whether the operand of `op` that begins with a unary operator ends right behind the symbol of
it, with `t` behind that: `t` begins with an operator that does not bind tighter than `op`. -/
def cutsOperand (op : Operator) (t : List Char) : Bool :=
  (Operator.longestMatch t).any (endsOperandOf (some op))

section
variable {u : Unary} {t : List Char} {a : Tree} {levels : Nat}

theorem isBinaryOperator_backTrack_unary (u : Unary) :
    isBinaryOperator (backTrack u.symbol.reverse) = false := by
  by_contra hback
  obtain ⟨b, hb⟩ := isBinaryOperator_backTrack_iff.mp (by simpa using hback)
  cases @Operator.eq_of_symbol_suffix b (.unary u) (List.reverse_prefix.mp hb)

/-- An operator that does not bind as tightly as some other one binds no tighter than `u`. -/
theorem endsOperandOf_unary {op next : Operator} (h : endsOperandOf (some op) next = false)
    (u : Unary) (o : Operator) (ho : endsOperandOf (some op) o = true) :
    endsOperandOf (some (.unary u)) o = true := by
  have hnext : next.rank < op.rank := by simpa [endsOperandOf] using h
  have hle : op.rank ≤ o.rank := by simpa [endsOperandOf] using ho
  have hpos : 0 < next.rank := by
    cases next with
    | unary w => exact (unary_rank w).1
    | binary b => exact lt_of_lt_of_le (by decide) (three_le_rank b)
  have hu : u.rank ≤ 2 := (unary_rank u).2
  exact decide_eq_true (show u.rank ≤ o.rank by omega)

/-- Past the first operator the search goes on to the end, as the one for the operand of `u` did. -/
theorem argumentFrom_past_symbol {op next : Operator}
    (hnext : Operator.longestMatch t = some next) (hu : argument (some (.unary u)) t = (t, []))
    (hend : endsOperandOf (some op) next = false) :
    argumentFrom (some op) u.symbol.reverse t = (u.symbol ++ t, []) := by
  have ht := Operator.eq_append_of_longestMatch hnext
  rw [ht] at hnext
  have hfirst := @argumentFrom_operator (some (.unary u)) [] _ next hnext (.inl rfl)
  have hover := @argumentFrom_append_before (some (.unary u)) (some op)
    next.symbol.reverse u.symbol.reverse (t.drop next.symbol.length)
    (endsOperandOf_unary hend u) fun hnil => absurd hnil (by simp [next.symbol_ne_nil])
  rw [← ht, ← argument, hu, List.append_nil] at hfirst
  rw [← hfirst, argumentFrom_nil] at hover
  conv_lhs => rw [ht]
  rw [argumentFrom_operator hnext (.inr (.inr hend)), hover]
  simp

theorem argument_prefix (h : readLevels (levels + 1) (u.symbol ++ t) = .ok (.unary u a))
    (op : Operator) :
    argument (some op) (u.symbol ++ t) =
      if cutsOperand op t then (u.symbol, t) else (u.symbol ++ t, []) := by
  obtain ⟨hm, hu, hread⟩ := exists_of_readLevels_unary h
  have hstep := @argumentFrom_operator (some op) [] t (.unary u) hm (.inl rfl)
  rw [Operator.symbol_unary, List.append_nil] at hstep
  have hsymbol : u.symbol ≠ [] := (Operator.unary u).symbol_ne_nil
  rw [argument, hstep, cutsOperand]
  cases hnext : Operator.longestMatch t with
  | none =>
    rw [argumentFrom_of_readLevels hread hnext hu]
    simp
  | some next =>
    rw [Option.any_some]
    cases hend : endsOperandOf (some op) next with
    | true =>
      rw [argumentFrom_stop hnext (by simpa using hsymbol) (isBinaryOperator_backTrack_unary u)
        hend]
      simp
    | false =>
      rw [argumentFrom_past_symbol hnext hu hend]
      rfl

/-- A symbol without an operand is not read. -/
theorem readLevels_symbol (u : Unary) (levels : Nat) :
    readLevels (levels + 1) u.symbol = .error (.malformed (.operandCount u.name)) := by
  have henclosed := Phrase.enclosed?_of_head? (Phrase.head?_symbol_ne (.unary u) [])
  have hnumber : isNumber u.symbol = false :=
    Operator.forall_of_byLength (p := fun op => isNumber op.symbol = false) (by decide) (.unary u)
  have hm : Operator.longestMatch u.symbol = some (.unary u) :=
    Operator.longestMatch_symbol (.unary u)
  have hne : u.symbol ≠ [] := (Operator.unary u).symbol_ne_nil
  have hname : isName u.symbol = false := isName_symbol (.unary u)
  rw [List.append_nil, Operator.symbol_unary] at henclosed
  rw [Phrase.readLevels_succ hne henclosed hname, number?, if_neg (by simp [hnumber]),
    readChain_unary hm]
  simp [argument]

theorem readLevels_of_isName {x : List Char} (h : isName x = true) (levels : Nat) :
    readLevels (levels + 1) x = .ok (.var (String.ofList x)) := by
  have hne : x ≠ [] := by
    rintro rfl
    cases h
  have henclosed : enclosed? x = none := by
    refine Phrase.enclosed?_of_head? ?_
    rintro c hc rfl
    exact absurd (isBracket_of_isName h '(' (List.mem_of_mem_head? hc)) (by decide)
  simp only [readLevels, List.isEmpty_iff, hne, ↓reduceIte, henclosed, h]

theorem read_unary_prefix (h : read (u.symbol ++ t) = .ok (.unary u a)) {v : Unary}
    (hm : Operator.longestMatch (v.symbol ++ (u.symbol ++ t)) = some (.unary v)) :
    if cutsOperand (.unary v) t then
      read (v.symbol ++ (u.symbol ++ t)) = .error (.malformed (.operandCount u.name))
    else StopsOrIs (read (v.symbol ++ (u.symbol ++ t))) (.ok (.unary v (.unary u a))) := by
  obtain ⟨d, s, hv⟩ := List.exists_cons_of_ne_nil (Operator.unary v).symbol_ne_nil
  have hd : d ≠ '(' := Phrase.head?_symbol_ne (.unary v) [] d (by rw [hv]; rfl)
  have hu : u.symbol ≠ [] := (Operator.unary u).symbol_ne_nil
  have hread : read (v.symbol ++ (u.symbol ++ t)) =
      readChain (readLevels maxDepth) (v.symbol ++ (u.symbol ++ t)) none
        (v.symbol ++ (u.symbol ++ t)) := by
    rw [Operator.symbol_unary] at hv
    rw [hv]
    exact @readLevels_of_symbol t maxDepth (.unary u) d s hd
  rw [hread, readChain_unary hm, List.drop_left, argument_prefix h]
  split
  · have hbelow : readLevels maxDepth u.symbol = .error (.malformed (.operandCount u.name)) :=
      readLevels_symbol u _
    simp only [List.isEmpty_iff, hu, ↓reduceIte, Option.isSome_none, Bool.false_eq_true, hbelow]
    rfl
  · simp only [List.isEmpty_iff, List.append_eq_nil_iff, hu, false_and, ↓reduceIte,
      Option.isSome_none, Bool.false_eq_true]
    rcases stopsOrIs_readLevels_succ h with hbelow | hbelow
    · exact .inl (by rw [hbelow]; rfl)
    · rw [hbelow]
      exact .inr (readChain_some_nil _)

theorem read_binary_prefix (h : read (u.symbol ++ t) = .ok (.unary u a)) {op : Binary}
    {x : List Char} (hx : isName x = true)
    (htokens : tokens (x ++ (op.symbol ++ (u.symbol ++ t))) =
      x.map .character ++ .operator (.binary op) :: .operator (.unary u) :: tokens t) :
    if cutsOperand (.binary op) t then
      read (x ++ (op.symbol ++ (u.symbol ++ t))) = .error (.malformed (.operandCount u.name))
    else StopsOrIs (read (x ++ (op.symbol ++ (u.symbol ++ t))))
      (.ok (.binary op (.var (String.ofList x)) (.unary u a))) := by
  obtain ⟨hnone, htokens⟩ := longestMatch_of_tokens htokens
  obtain ⟨-, -, hm, -⟩ := exists_of_tokens_operator htokens
  have hne : x ≠ [] := by
    rintro rfl
    cases hx
  have hbracket := isBracket_of_isName hx
  have hopen : ∀ c ∈ x, c ≠ '(' := by
    rintro c hc rfl
    exact absurd (hbracket _ hc) (by decide)
  have hback : isBinaryOperator (backTrack (x.reverse ++ [])) = false := by
    by_contra hback
    obtain ⟨b, hb⟩ := isBinaryOperator_backTrack_iff.mp (by simpa using hback)
    have hsuffix : (Operator.binary b).symbol <:+ x := List.reverse_prefix.mp hb
    rw [isName_of_contains hsuffix.isInfix] at hx
    cases hx
  have hfirst : argument none (x ++ (op.symbol ++ (u.symbol ++ t))) =
      (x, op.symbol ++ (u.symbol ++ t)) := by
    rw [argument, argumentFrom_plain hopen hnone,
      argumentFrom_stop hm (by simpa using hne) hback rfl]
    simp
  have hwhole : x ++ (op.symbol ++ (u.symbol ++ t)) ≠ [] := List.append_ne_nil_of_left_ne_nil hne _
  have hread : read (x ++ (op.symbol ++ (u.symbol ++ t))) =
      readChain (readLevels maxDepth) (x ++ (op.symbol ++ (u.symbol ++ t))) none
        (x ++ (op.symbol ++ (u.symbol ++ t))) := by
    obtain ⟨d, s, rfl⟩ := List.exists_cons_of_ne_nil hne
    exact @readLevels_of_symbol (u.symbol ++ t) maxDepth (.binary op) d s
      (hopen d (List.mem_cons_self ..))
  have hu : u.symbol ≠ [] := (Operator.unary u).symbol_ne_nil
  have hleft : readLevels maxDepth x = .ok (.var (String.ofList x)) := readLevels_of_isName hx _
  rw [hread, readChain_operand hwhole (hnone x List.suffix_rfl hne) (by rw [hfirst]; exact hm),
    hfirst]
  simp only
  rw [List.drop_left, argument_prefix h]
  split
  · have hbelow : readLevels maxDepth u.symbol = .error (.malformed (.operandCount u.name)) :=
      readLevels_symbol u _
    simp only [List.isEmpty_iff, hu, ↓reduceIte, hleft, hbelow]
    rfl
  · simp only [List.isEmpty_iff, List.append_eq_nil_iff, hu, false_and, ↓reduceIte, hleft]
    rcases stopsOrIs_readLevels_succ h with hbelow | hbelow
    · exact .inl (by rw [hbelow]; rfl)
    · rw [hbelow]
      exact .inr (readChain_some_nil _)

/-- A text that is read as the application of a unary operator is read so behind another unary
operator, and behind a name with a binary operator, unless the operand of that operator is cut off
behind the symbol. Then an operand is missing. -/
theorem read_prefix_operand (h : read (u.symbol ++ t) = .ok (.unary u a)) :
    (∀ v : Unary, Operator.longestMatch (v.symbol ++ (u.symbol ++ t)) = some (.unary v) →
      if cutsOperand (.unary v) t then
        read (v.symbol ++ (u.symbol ++ t)) = .error (.malformed (.operandCount u.name))
      else StopsOrIs (read (v.symbol ++ (u.symbol ++ t))) (.ok (.unary v (.unary u a)))) ∧
    ∀ (op : Binary) (x : List Char), isName x = true →
      tokens (x ++ (op.symbol ++ (u.symbol ++ t))) =
        x.map .character ++ .operator (.binary op) :: .operator (.unary u) :: tokens t →
      if cutsOperand (.binary op) t then
        read (x ++ (op.symbol ++ (u.symbol ++ t))) = .error (.malformed (.operandCount u.name))
      else StopsOrIs (read (x ++ (op.symbol ++ (u.symbol ++ t))))
        (.ok (.binary op (.var (String.ofList x)) (.unary u a))) :=
  ⟨fun _ hm => read_unary_prefix h hm, fun _ _ hx htokens => read_binary_prefix h hx htokens⟩

end

theorem read_prefix_operand_not_sin :
    StopsOrIs (read ['!', '!', 'x']) (.ok (.unary .not (.unary .not (.var "x")))) ∧
      read ['!', '!', '!', 'x'] = .error (.malformed (.operandCount Unary.not.name)) ∧
      read ['a', '*', 's', 'i', 'n', '-', 'x'] =
        .error (.malformed (.operandCount Unary.sin.name)) := by
  have hx : read ['!', 'x'] = .ok (.unary .not (.var "x")) := by decide +kernel
  have hnot : read ['!', '!', 'x'] = .ok (.unary .not (.unary .not (.var "x"))) := by
    decide +kernel
  have hsin : read ['s', 'i', 'n', '-', 'x'] =
      .ok (.unary .sin (.binary .minus .zero (.var "x"))) := by
    decide +kernel
  refine ⟨?_, ?_, ?_⟩
  · exact (@read_prefix_operand .not ['x'] _ hx).1 .not (by decide)
  · exact (@read_prefix_operand .not ['!', 'x'] _ hnot).1 .not (by decide)
  · exact (@read_prefix_operand .sin ['-', 'x'] _ hsin).2 .times ['a'] (by decide)
      (by decide +kernel)

end Reckon.Formula
