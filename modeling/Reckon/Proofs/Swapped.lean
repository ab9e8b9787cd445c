import Reckon.Proofs.ReaderSteps
import Reckon.Proofs.Unlimited
import Reckon.Proofs.Validated

/-!
# What stands in brackets

Brackets keep what is between them apart: the reader takes it as a whole, so another text in its
place changes the tree in one place only (`exists_readLevels_around`).
-/

namespace Reckon

/-- The second tree has `b` in one place where the first has `a`. -/
inductive Tree.Swapped (a b : Tree) : Tree → Tree → Prop
  | here : Swapped a b a b
  | unary {t t' : Tree} (op : Unary) : Swapped a b t t' → Swapped a b (.unary op t) (.unary op t')
  | left {l l' : Tree} (op : Binary) (r : Tree) :
      Swapped a b l l' → Swapped a b (.binary op l r) (.binary op l' r)
  | right {r r' : Tree} (op : Binary) (l : Tree) :
      Swapped a b r r' → Swapped a b (.binary op l r) (.binary op l r')

namespace Formula

/-! ### The place of a text in brackets -/

/-- The text `w` in brackets between two others. -/
def around (before after w : List Char) : List Char :=
  before ++ (Tree.inBrackets w ++ after)

theorem around_eq (before after w : List Char) :
    around before after w = before ++ '(' :: (w ++ ')' :: after) := by
  simp [around, Tree.inBrackets]

theorem closingFrom_add (depth : Int) (place n : Nat) (s : List Char) :
    closingFrom depth (place + n) s = (closingFrom depth place s).map (· + n) := by
  induction s generalizing depth place with
  | nil => rfl
  | cons c s ih =>
    rw [closingFrom, closingFrom]
    obtain ⟨next, hnext⟩ : ∃ next, next =
      if c = '(' then depth + 1 else if c = ')' then depth - 1 else depth := ⟨_, rfl⟩
    simp only [← hnext]
    split
    · rfl
    · rw [Nat.add_right_comm, ih]

/-- The search for a closing bracket ends in the text, or goes on behind it whatever comes there. -/
theorem closingFrom_cases {depth : Int} (hd : 0 < depth) (place : Nat) (s : List Char) :
    (∃ k < s.length, ∀ t, closingFrom depth place (s ++ t) = some (place + k)) ∨
      ∃ depth' > 0, ∀ t,
        closingFrom depth place (s ++ t) = closingFrom depth' (place + s.length) t := by
  induction s generalizing depth place with
  | nil => exact .inr ⟨depth, hd, fun t => rfl⟩
  | cons c s ih =>
    obtain ⟨next, hnext⟩ : ∃ next, next =
      if c = '(' then depth + 1 else if c = ')' then depth - 1 else depth := ⟨_, rfl⟩
    have hstep : ∀ t, closingFrom depth place (c :: s ++ t) =
        if next = 0 then some place else closingFrom next (place + 1) (s ++ t) := by
      intro t
      rw [hnext]
      rfl
    by_cases hzero : next = 0
    · exact .inl ⟨0, by simp, fun t => by rw [hstep, if_pos hzero, Nat.add_zero]⟩
    have hpos : 0 < next := by
      have hge : depth - 1 ≤ next := by
        rw [hnext]
        split
        · omega
        split <;> omega
      omega
    rcases ih hpos (place + 1) with ⟨k, hk, h⟩ | ⟨depth', hd', h⟩
    · refine .inl ⟨k + 1, by simpa using hk, fun t => ?_⟩
      rw [hstep, if_neg hzero, h]
      congr 1
      omega
    · refine .inr ⟨depth', hd', fun t => ?_⟩
      rw [hstep, if_neg hzero, h, List.length_cons]
      congr 1
      omega

/-- The partner of a bracket stands in front of the place, or behind it, or nowhere. -/
theorem closing?_around (before after : List Char) :
    (∃ k ≤ before.length, ∀ w, Nested w → closing? ('(' :: around before after w) = some k) ∨
    (∃ q q', after = q ++ ')' :: q' ∧ ∀ w, Nested w → closing? ('(' :: around before after w) =
      some (around before (q ++ [')']) w).length) ∨
    ∀ w, Nested w → closing? ('(' :: around before after w) = none := by
  have hopen : ∀ w, closing? ('(' :: around before after w) =
      closingFrom 1 1 (before ++ (Tree.inBrackets w ++ after)) := fun w => rfl
  rcases closingFrom_cases one_pos 1 before with ⟨k, hk, h⟩ | ⟨depth, hd, h⟩
  · exact .inl ⟨1 + k, by omega, fun w hw => by rw [hopen, h]⟩
  have hbehind : ∀ w, Nested w → closing? ('(' :: around before after w) =
      (closingFrom depth 0 after).map (· + (1 + before.length + (Tree.inBrackets w).length)) := by
    intro w hw
    rw [hopen, h, closingFrom_append hw.inBrackets hd, ← closingFrom_add, Nat.zero_add]
  cases hafter : closingFrom depth 0 after with
  | none => exact .inr (.inr fun w hw => by rw [hbehind w hw, hafter]; rfl)
  | some k =>
    obtain ⟨q, q', rfl, rfl⟩ := eq_append_of_closingFrom hd hafter
    refine .inr (.inl ⟨q, q', rfl, fun w hw => ?_⟩)
    rw [hbehind w hw, hafter, Option.map_some]
    simp only [around, List.length_append, List.length_singleton]
    congr 1
    omega

/-! ### Cutting an operand -/

/-- What stands in front of a bracket is no part of a symbol behind it. -/
theorem symbol_prefix_append_bracket {c : Char} (hc : c = '(' ∨ c = ')') (op : Operator)
    (s t : List Char) : op.symbol.reverse <+: s ++ c :: t ↔ op.symbol.reverse <+: s := by
  refine ⟨fun h => ?_, fun h => h.trans (List.prefix_append s _)⟩
  have hnot : c ∉ op.symbol.reverse := by
    rw [List.mem_reverse]
    refine op.not_mem_symbol ?_
    rcases hc with rfl | rfl <;> decide
  rcases Nat.lt_or_ge s.length op.symbol.reverse.length with hlen | hlen
  · -- the symbol would go over the bracket
    have hbracket : s ++ [c] <+: s ++ c :: t := ⟨t, by simp⟩
    have hs : s ++ [c] <+: op.symbol.reverse :=
      List.prefix_of_prefix_length_le hbracket h (by simpa using Nat.succ_le_of_lt hlen)
    exact absurd (hs.subset (by simp)) hnot
  · exact List.prefix_of_prefix_length_le h (List.prefix_append s _) hlen

theorem isBinaryOperator_backTrack_bracket (s t : List Char) :
    isBinaryOperator (backTrack (s ++ ')' :: t)) = isBinaryOperator (backTrack s) := by
  rw [Bool.eq_iff_iff, isBinaryOperator_backTrack_iff, isBinaryOperator_backTrack_iff]
  exact exists_congr fun b => symbol_prefix_append_bracket (.inr rfl) (.binary b) s t

/-- At a bracket everything up to its partner is taken. -/
theorem argumentFrom_open (op : Option Operator) (taken s : List Char) :
    let k := (closing? ('(' :: s)).getD 0
    argumentFrom op taken ('(' :: s) =
      argumentFrom op (('(' :: s.take k).reverse ++ taken) (s.drop k) := by
  intro k
  rw [argumentFrom]
  simp only [↓reduceIte]
  rfl

/-- Behind a bracket an operand ends where it ends whatever stands in front of the bracket. -/
theorem argumentFrom_behind (op : Option Operator) (s after : List Char) :
    ∃ q q', after = q ++ q' ∧ ∀ t,
      argumentFrom op (s ++ ')' :: t) after = ((s ++ ')' :: t).reverse ++ q, q') := by
  obtain ⟨n, hn⟩ : ∃ n, n = after.length := ⟨_, rfl⟩
  induction n using Nat.strong_induction_on generalizing s after with
  | _ n ih =>
    subst hn
    -- more is taken, and the rest is shorter
    have hmore : ∀ u v, after = u ++ v → u ≠ [] →
        (∀ t, argumentFrom op (s ++ ')' :: t) after =
          argumentFrom op (u.reverse ++ s ++ ')' :: t) v) →
        ∃ q q', after = q ++ q' ∧ ∀ t,
          argumentFrom op (s ++ ')' :: t) after = ((s ++ ')' :: t).reverse ++ q, q') := by
      intro u v heq hu hstep
      have hlt : v.length < after.length := by
        rw [heq, List.length_append]
        have := List.length_pos_of_ne_nil hu
        omega
      obtain ⟨q, q', rfl, h⟩ := ih v.length hlt (u.reverse ++ s) v rfl
      refine ⟨u ++ q, q', by rw [heq, List.append_assoc], fun t => ?_⟩
      rw [hstep, h]
      simp
    cases after with
    | nil => exact ⟨[], [], rfl, fun t => by simp⟩
    | cons c after =>
      by_cases hc : c = '('
      · subst hc
        obtain ⟨k, hk⟩ : ∃ k, k = (closing? ('(' :: after)).getD 0 := ⟨_, rfl⟩
        refine hmore ('(' :: after.take k) (after.drop k) (by simp) (List.cons_ne_nil _ _) ?_
        intro t
        rw [argumentFrom_open, ← hk, List.append_assoc]
      cases hm : Operator.longestMatch (c :: after) with
      | none =>
        refine hmore [c] after rfl (List.cons_ne_nil _ _) fun t => ?_
        rw [argumentFrom_cons hc hm]
        rfl
      | some next =>
        have hback := isBinaryOperator_backTrack_bracket s
        by_cases hend : isBinaryOperator (backTrack s) = false ∧ endsOperandOf op next = true
        · refine ⟨[], c :: after, rfl, fun t => ?_⟩
          rw [argumentFrom_stop hm (by simp) ((hback t).trans hend.1) hend.2, List.append_nil]
        · have heq := Operator.eq_append_of_longestMatch hm
          refine hmore next.symbol _ heq next.symbol_ne_nil fun t => ?_
          rw [heq] at hm ⊢
          rw [argumentFrom_operator hm, List.append_assoc]
          · simp
          · rw [hback]
            revert hend
            cases isBinaryOperator (backTrack s) <;> cases endsOperandOf op next <;> simp

theorem around_append (p p' after w : List Char) :
    around (p ++ p') after w = p ++ around p' after w := by
  simp [around]

theorem around_ne_nil (before after w : List Char) : around before after w ≠ [] := by
  simp [around, Tree.inBrackets]

theorem longestMatch_around (before after w : List Char) :
    Operator.longestMatch (around before after w) = Operator.longestMatch before :=
  longestMatch_append_bracket (.inl rfl) before _

/-- An operand ends in front of the place or behind it, whatever stands there. -/
def EndsAround (op : Option Operator) (taken before after : List Char) : Prop :=
  (∃ p p', before = p ++ p' ∧ ∀ w, Nested w →
    argumentFrom op taken (around before after w) = (taken.reverse ++ p, around p' after w)) ∨
  ∃ q q', after = q ++ q' ∧ ∀ w, Nested w →
    argumentFrom op taken (around before after w) = (taken.reverse ++ around before q w, q')

namespace EndsAround
variable {op : Option Operator} {taken before after : List Char}

/-- More is taken in front of the place. -/
theorem of_append {u v : List Char}
    (hstep : ∀ w, Nested w → argumentFrom op taken (around (u ++ v) after w) =
      argumentFrom op (u.reverse ++ taken) (around v after w))
    (h : EndsAround op (u.reverse ++ taken) v after) : EndsAround op taken (u ++ v) after := by
  rcases h with ⟨p, p', rfl, h⟩ | ⟨q, q', rfl, h⟩
  · refine .inl ⟨u ++ p, p', by rw [List.append_assoc], fun w hw => ?_⟩
    rw [hstep w hw, h w hw]
    simp
  · refine .inr ⟨q, q', rfl, fun w hw => ?_⟩
    rw [hstep w hw, h w hw, around_append]
    simp

/-- What stands at the place has been taken, with a bracket behind it. -/
theorem of_behind {q q' : List Char}
    (h : ∀ w, Nested w → ∃ t, argumentFrom op taken (around before (q ++ q') w) =
      argumentFrom op (')' :: t) q' ∧ (')' :: t).reverse = taken.reverse ++ around before q w) :
    EndsAround op taken before (q ++ q') := by
  obtain ⟨r, r', rfl, hr⟩ := argumentFrom_behind op [] q'
  refine .inr ⟨q ++ r, r', by rw [List.append_assoc], fun w hw => ?_⟩
  obtain ⟨t, ht, htaken⟩ := h w hw
  rw [ht, ← List.nil_append (')' :: t), hr t, List.nil_append, htaken]
  simp [around]

theorem nil : EndsAround op taken [] after := by
  refine of_behind (q := []) fun w hw => ⟨w.reverse ++ '(' :: taken, ?_, ?_⟩
  · rw [around, List.nil_append, List.nil_append, argumentFrom_inBrackets hw]
    simp [Tree.inBrackets]
  · simp [around, Tree.inBrackets]

/-- A bracket in front of the place is taken up to its partner, which may stand behind the place. -/
theorem cons_open
    (hmore : ∀ u v, before = u ++ v → EndsAround op (('(' :: u).reverse ++ taken) v after) :
    EndsAround op taken ('(' :: before) after := by
  have hopen : ∀ w, around ('(' :: before) after w = '(' :: around before after w := fun w => rfl
  rcases closing?_around before after with ⟨k, hk, h⟩ | ⟨q, q', rfl, h⟩ | h
  · rw [← List.take_append_drop k before, ← List.cons_append]
    refine of_append (fun w hw => ?_) (hmore _ _ (List.take_append_drop k before).symm)
    rw [List.cons_append, List.take_append_drop, hopen, argumentFrom_open, h w hw,
      Option.getD_some, around, List.take_append_of_le_length hk, List.drop_append_of_le_length hk]
    rfl
  · rw [List.append_cons]
    refine of_behind fun w hw => ⟨(around ('(' :: before) q w).reverse ++ taken, ?_, ?_⟩
    · have hsplit : around before (q ++ ')' :: q') w = around before (q ++ [')']) w ++ q' := by
        simp [around]
      rw [← List.append_cons, hopen, argumentFrom_open, h w hw, Option.getD_some, hsplit,
        List.take_left, List.drop_left]
      simp [around]
    · simp [around]
  · refine of_append (u := ['(']) (fun w hw => ?_) (hmore [] before rfl)
    rw [List.singleton_append, hopen, argumentFrom_open, h w hw]
    rfl

end EndsAround

theorem endsAround (op : Option Operator) (taken before after : List Char) :
    EndsAround op taken before after := by
  obtain ⟨n, hn⟩ : ∃ n, n = before.length := ⟨_, rfl⟩
  induction n using Nat.strong_induction_on generalizing taken before with
  | _ n ih =>
    subst hn
    cases before with
    | nil => exact .nil
    | cons c before =>
      have hcons : ∀ w, around (c :: before) after w = c :: around before after w := fun w => rfl
      by_cases hc : c = '('
      · subst hc
        refine .cons_open fun u v heq => ih v.length ?_ _ v rfl
        rw [heq, List.length_cons, List.length_append]
        omega
      have hbracket := longestMatch_around (c :: before) after
      cases hm : Operator.longestMatch (c :: before) with
      | none =>
        refine .of_append (u := [c]) (fun w hw => ?_) (ih before.length (by simp) _ before rfl)
        rw [List.singleton_append, hcons, argumentFrom_cons hc (by rw [← hcons, hbracket, hm])]
        rfl
      | some next =>
        by_cases hend : taken ≠ [] ∧ isBinaryOperator (backTrack taken) = false ∧
            endsOperandOf op next = true
        · refine .inl ⟨[], c :: before, rfl, fun w hw => ?_⟩
          rw [argumentFrom_stop ((hbracket w).trans hm) hend.1 hend.2.1 hend.2.2, List.append_nil]
        · obtain ⟨v, heq⟩ : ∃ v, c :: before = next.symbol ++ v :=
            ⟨_, Operator.eq_append_of_longestMatch hm⟩
          have hlt : v.length < (c :: before).length := by
            have := next.length_symbol_pos
            rw [heq, List.length_append]
            omega
          rw [heq]
          refine .of_append (fun w hw => ?_) (ih v.length hlt _ v rfl)
          have hm' := (hbracket w).trans hm
          rw [heq, around_append] at hm'
          rw [around_append]
          refine argumentFrom_operator hm' ?_
          by_contra hnot
          rw [not_or, not_or, Bool.not_eq_true, Bool.not_eq_false] at hnot
          exact hend hnot

/-! ### Reading -/

section
variable {u v : List Char} {a b : Tree} {below : List Char → Except Failure Tree}
  {whole whole' after : List Char} {t : Tree}

/-- A chain goes on in the same way behind another first operand. -/
theorem readChain_of_swapped {t₀ t₀' : Tree} (h : Tree.Swapped a b t₀ t₀') {s : List Char}
    (ht : readChain below whole (some t₀) s = .ok t) :
    ∃ t', readChain below whole' (some t₀') s = .ok t' ∧ Tree.Swapped a b t t' := by
  obtain ⟨n, hn⟩ : ∃ n, n = s.length := ⟨_, rfl⟩
  induction n using Nat.strong_induction_on generalizing s t₀ t₀' with
  | _ n ih =>
    subst hn
    by_cases hs : s = []
    · subst hs
      rw [readChain_some_nil] at ht
      cases ht
      exact ⟨t₀', readChain_some_nil t₀', h⟩
    obtain ⟨op, hm⟩ := exists_of_readChain_some hs ht
    rw [readChain_binary hm] at ht ⊢
    simp only at ht ⊢
    split at ht
    · cases ht
    · rename_i hoperand
      obtain ⟨right, hright, ht⟩ := bind_eq_ok_iff.mp ht
      rw [if_neg (by simpa using hoperand), hright]
      exact ih _ (length_argument_drop_lt hm _) (h.left op right) ht rfl

variable (hu : Nested u) (hv : Nested v)
include hu hv

theorem isEmpty_argument_around (op : Option Operator) (before after : List Char) :
    (argument op (around before after u)).1.isEmpty =
      (argument op (around before after v)).1.isEmpty := by
  rcases endsAround op [] before after with ⟨p, p', -, h⟩ | ⟨q, q', -, h⟩
  · rw [argument, argument, h u hu, h v hv]
  · rw [argument, argument, h u hu, h v hv]
    have hempty : ∀ w, (around before q w).isEmpty = false := fun w =>
      List.isEmpty_eq_false_iff.mpr (around_ne_nil before q w)
    exact (hempty u).trans (hempty v).symm

variable (hplace : ∀ before after t, below (around before after u) = .ok t →
    ∃ t', below (around before after v) = .ok t' ∧ Tree.Swapped a b t t')
include hplace

/-- The operand that is read next and the rest of the chain: the place is in it, or behind it. -/
theorem readOperand_around (op : Operator) {rest : List Char} {join : Tree → Tree} {x : Tree}
    (hjoin : ∀ y y', Tree.Swapped a b y y' → Tree.Swapped a b (join y) (join y'))
    (hbehind : ∀ p', p'.length ≤ rest.length → ∀ t₀,
      readChain below whole (some t₀) (around p' after u) = .ok t →
        ∃ t', readChain below whole' (some t₀) (around p' after v) = .ok t' ∧
          Tree.Swapped a b t t')
    (hx : below (argument op (around rest after u)).1 = .ok x)
    (ht : readChain below whole (some (join x)) (argument op (around rest after u)).2 = .ok t) :
    ∃ t', (below (argument op (around rest after v)).1 >>= fun y =>
        readChain below whole' (some (join y)) (argument op (around rest after v)).2) = .ok t' ∧
      Tree.Swapped a b t t' := by
  rcases endsAround op [] rest after with ⟨p, p', rfl, h⟩ | ⟨q, q', rfl, h⟩
  · rw [argument, h u hu] at hx ht
    rw [argument, h v hv, hx]
    exact hbehind p' (by simp) _ ht
  · rw [argument, h u hu] at hx ht
    obtain ⟨x', hx', hswapped⟩ := hplace _ _ _ hx
    rw [argument, h v hv, List.reverse_nil, List.nil_append, hx']
    exact readChain_of_swapped (hjoin x x' hswapped) ht

/-- A chain that begins with an operand. -/
theorem readChain_around_operand {before : List Char} {tree : Option Tree}
    (hm : Operator.longestMatch before = none)
    (hbehind : ∀ p', p'.length < before.length → ∀ t₀,
      readChain below whole (some t₀) (around p' after u) = .ok t →
        ∃ t', readChain below whole' (some t₀) (around p' after v) = .ok t' ∧
          Tree.Swapped a b t t')
    (ht : readChain below whole tree (around before after u) = .ok t) :
    ∃ t', readChain below whole' tree (around before after v) = .ok t' ∧
      Tree.Swapped a b t t' := by
  have hne := around_ne_nil before after
  have hmatch : ∀ w, Operator.longestMatch (around before after w) = none := fun w =>
    (longestMatch_around before after w).trans hm
  obtain ⟨rfl, op, hop⟩ := exists_of_readChain_operand (hne u) (hmatch u) ht
  rw [readChain_operand (hne u) (hmatch u) hop] at ht
  rcases endsAround none [] before after with ⟨p, p', heq, h⟩ | ⟨q, q', -, h⟩
  · -- the place is behind the first operand
    have hfirst : ∀ w, Nested w → argument none (around before after w) = (p, around p' after w) :=
      h
    rw [hfirst u hu, longestMatch_around] at hop
    have hop' : Operator.longestMatch (argument none (around before after v)).2 =
        some (.binary op) := by
      rw [hfirst v hv, longestMatch_around, hop]
    obtain ⟨rest, rfl⟩ : ∃ rest, p' = op.symbol ++ rest :=
      ⟨_, Operator.eq_append_of_longestMatch hop⟩
    have hlt : rest.length < before.length := by
      have := (Operator.binary op).length_symbol_pos
      rw [heq, List.length_append, List.length_append, ← Operator.symbol_binary]
      omega
    rw [readChain_operand (hne v) (hmatch v) hop']
    simp only [hfirst u hu, hfirst v hv, around_append, List.drop_left,
      isEmpty_argument_around hu hv] at ht ⊢
    split at ht
    · cases ht
    · rename_i hempty
      obtain ⟨left, hleft, ht⟩ := bind_eq_ok_iff.mp ht
      obtain ⟨right, hright, ht⟩ := bind_eq_ok_iff.mp ht
      rw [if_neg hempty, hleft]
      exact readOperand_around hu hv hplace (.binary op) (fun _ _ h => h.right op left)
        (fun p' hp' => hbehind p' (hp'.trans_lt hlt)) hright ht
  · -- the place is in the first operand
    have hfirst : ∀ w, Nested w → argument none (around before after w) = (around before q w, q') :=
      h
    rw [hfirst u hu] at hop
    have hop' : Operator.longestMatch (argument none (around before after v)).2 =
        some (.binary op) := by
      rw [hfirst v hv, hop]
    rw [readChain_operand (hne v) (hmatch v) hop']
    simp only [hfirst u hu, hfirst v hv] at ht ⊢
    split at ht
    · cases ht
    · rename_i hempty
      obtain ⟨left, hleft, ht⟩ := bind_eq_ok_iff.mp ht
      obtain ⟨right, hright, ht⟩ := bind_eq_ok_iff.mp ht
      obtain ⟨left', hleft', hswapped⟩ := hplace _ _ _ hleft
      obtain ⟨t', ht', hs⟩ := @readChain_of_swapped _ _ _ _ whole' _ _ _
        (hswapped.left op right) _ ht
      rw [if_neg hempty]
      exact ⟨t', bind_eq_ok_iff.mpr ⟨left', hleft', bind_eq_ok_iff.mpr ⟨right, hright, ht'⟩⟩, hs⟩

/-- A chain around the place. -/
theorem readChain_around {tree : Option Tree} {before : List Char}
    (ht : readChain below whole tree (around before after u) = .ok t) :
    ∃ t', readChain below whole' tree (around before after v) = .ok t' ∧
      Tree.Swapped a b t t' := by
  obtain ⟨n, hn⟩ : ∃ n, n = before.length := ⟨_, rfl⟩
  induction n using Nat.strong_induction_on generalizing before tree with
  | _ n ih =>
    subst hn
    cases hm : Operator.longestMatch before with
    | none => exact readChain_around_operand hu hv hplace hm (fun p' hp' _ h => ih _ hp' h rfl) ht
    | some op =>
      obtain ⟨rest, rfl⟩ : ∃ rest, before = op.symbol ++ rest :=
        ⟨_, Operator.eq_append_of_longestMatch hm⟩
      have hmatch : ∀ w, Operator.longestMatch (around (op.symbol ++ rest) after w) = some op :=
        fun w => (longestMatch_around _ _ w).trans hm
      have hbehind : ∀ p' : List Char, p'.length ≤ rest.length → ∀ t₀,
          readChain below whole (some t₀) (around p' after u) = .ok t →
            ∃ t', readChain below whole' (some t₀) (around p' after v) = .ok t' ∧
              Tree.Swapped a b t t' := by
        intro p' hp' t₀ h
        have := op.length_symbol_pos
        exact ih p'.length (by rw [List.length_append]; omega) h rfl
      cases op with
      | binary op =>
        rw [readChain_binary (hmatch u)] at ht
        rw [readChain_binary (hmatch v)]
        simp only [around_append, Operator.symbol_binary, List.drop_left,
          isEmpty_argument_around hu hv] at ht ⊢
        split at ht
        · cases ht
        · rename_i hsign
          obtain ⟨right, hright, ht⟩ := bind_eq_ok_iff.mp ht
          rw [if_neg hsign]
          exact readOperand_around hu hv hplace (.binary op)
            (fun _ _ h => h.right op (tree.getD .zero)) hbehind hright ht
      | unary op =>
        rw [readChain_unary (hmatch u)] at ht
        rw [readChain_unary (hmatch v)]
        simp only [around_append, Operator.symbol_unary, List.drop_left,
          isEmpty_argument_around hu hv] at ht ⊢
        split at ht
        · cases ht
        split at ht
        · cases ht
        · rename_i hempty htree
          obtain ⟨operand, hread, ht⟩ := bind_eq_ok_iff.mp ht
          rw [if_neg hempty, if_neg htree]
          exact readOperand_around hu hv hplace (.unary op) (fun _ _ h => h.unary op) hbehind
            hread ht

end

theorem length_around (before after w : List Char) :
    (around before after w).length = before.length + (w.length + 2) + after.length := by
  simp only [around, Tree.inBrackets, List.length_append, List.length_cons, List.length_nil]
  omega

/-- Brackets around the whole text are those of the place, or around the place, or there are
none. -/
theorem enclosed?_around (before after : List Char) :
    (before = [] ∧ after = []) ∨
    (∃ p q, ∀ w, Nested w → enclosed? (around before after w) = some (around p q w)) ∨
    ∀ w, Nested w → enclosed? (around before after w) = none := by
  cases before with
  | nil =>
    by_cases hafter : after = []
    · exact .inl ⟨rfl, hafter⟩
    · exact .inr (.inr fun w hw => enclosed?_group_append hw hafter)
  | cons c before =>
    by_cases hc : c = '('
    swap
    · refine .inr (.inr fun w hw => ?_)
      rw [around, List.cons_append, enclosed?]
      rintro - ⟨⟩
      exact hc rfl
    subst hc
    have henclosed : ∀ w, enclosed? (around ('(' :: before) after w) =
        if (closing? ('(' :: around before after w)).getD 0 = (around before after w).length then
          some (around before after w).dropLast
        else none := fun w => rfl
    rcases closing?_around before after with ⟨k, hk, h⟩ | ⟨q, q', rfl, h⟩ | h
    · refine .inr (.inr fun w hw => ?_)
      rw [henclosed, h w hw, Option.getD_some, if_neg]
      rw [length_around]
      omega
    · by_cases hq : q' = []
      · subst hq
        refine .inr (.inl ⟨before, q, fun w hw => ?_⟩)
        rw [henclosed, h w hw, Option.getD_some, if_pos rfl]
        congr 1
        rw [around, ← List.append_assoc, ← List.append_assoc, List.dropLast_concat, around,
          List.append_assoc]
      · refine .inr (.inr fun w hw => ?_)
        have := List.length_pos_of_ne_nil hq
        rw [henclosed, h w hw, Option.getD_some, if_neg]
        simp only [length_around, List.length_append, List.length_cons, List.length_nil]
        omega
    · refine .inr (.inr fun w hw => ?_)
      rw [henclosed, h w hw, Option.getD_none, if_neg]
      rw [length_around]
      omega

theorem mem_around (before after w : List Char) : '(' ∈ around before after w := by
  simp [around, Tree.inBrackets]

/-- Around the place there is more than a name or a number. -/
theorem readLevels_around_succ (levels : Nat) (before after w : List Char) :
    readLevels (levels + 1) (around before after w) =
      match enclosed? (around before after w) with
      | some inner => readLevels levels inner
      | none =>
        readChain (readLevels levels) (around before after w) none (around before after w) := by
  have hopen : isBracket '(' = true := by decide
  have hname : isName (around before after w) = false := by
    by_contra h
    have hplain := isBracket_of_isName (by simpa using h) _ (mem_around before after w)
    rw [hopen] at hplain
    cases hplain
  have hnumber : number? (around before after w) = none := by
    rw [number?, if_neg]
    intro h
    have hplain := isBracket_of_isNumber h _ (mem_around before after w)
    rw [hopen] at hplain
    cases hplain
  rw [readLevels, if_neg (by simpa using around_ne_nil before after w), hname, hnumber]
  rfl

/-- What is read around the place has one tree up to the tree of what stands there, if that takes
no more levels. -/
theorem exists_readLevels_around {u v : List Char} {a b : Tree} (hu : Nested u) (hv : Nested v)
    (hplace : ∀ levels t, readLevels levels u = .ok t → t = a ∧ readLevels levels v = .ok b)
    {levels : Nat} {before after : List Char} {t : Tree}
    (ht : readLevels levels (around before after u) = .ok t) :
    ∃ t', readLevels levels (around before after v) = .ok t' ∧ Tree.Swapped a b t t' := by
  induction levels generalizing before after t with
  | zero => cases ht
  | succ levels ih =>
    rw [readLevels_around_succ] at ht ⊢
    rcases enclosed?_around before after with ⟨rfl, rfl⟩ | ⟨p, q, h⟩ | h
    · have hwhole : ∀ w, Nested w → enclosed? (around [] [] w) = some w := by
        intro w hw
        rw [around, List.append_nil, List.nil_append, enclosed?_inBrackets hw]
      rw [hwhole u hu] at ht
      rw [hwhole v hv]
      obtain ⟨rfl, hb⟩ := hplace _ _ ht
      exact ⟨b, hb, .here⟩
    · rw [h u hu] at ht
      rw [h v hv]
      exact ih ht
    · rw [h u hu] at ht
      rw [h v hv]
      exact readChain_around hu hv (fun _ _ _ => ih) ht

end Formula

end Reckon
