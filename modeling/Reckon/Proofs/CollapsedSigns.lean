import Reckon.Proofs.SignPairs

/-!
# Reading texts with collapsed signs

Two signs in a row are read as a sign whose operand has a sign in front. One sign in their place is
read with the operand alone, so that a term is added or subtracted that was the difference of zero
and the term. Whatever is read with pairs of signs is therefore read with one sign in the place of
some of them, and has the same value (`keepsValues_readLevels`).
-/

namespace Reckon

/-- The second tree has the value of the first one, and none where the first one has none, whatever
powers, logarithms and functions are. -/
def Tree.SameValue (t t' : Tree) : Prop :=
  ∀ (I : Interpretation) (ρ : String → ℚ), t'.exact I ρ = t.exact I ρ

namespace Tree.SameValue
open Formula (signProduct signedValue)
open Formula.Phrase (exact_binary exact_zero both_signProduct toRat?_signedValue)

variable {a a' b b' c c' : Tree} {op o : Binary}

theorem refl (a : Tree) : a.SameValue a :=
  fun _ _ => rfl

theorem symm (h : a.SameValue b) : b.SameValue a :=
  fun I ρ => (h I ρ).symm

theorem trans (h : a.SameValue b) (h' : b.SameValue c) : a.SameValue c :=
  fun I ρ => (h' I ρ).trans (h I ρ)

theorem unary (op : Unary) (h : a.SameValue a') : (Tree.unary op a).SameValue (.unary op a') :=
  fun I ρ => congrArg (· >>= op.exact I) (h I ρ)

theorem binary (op : Binary) (ha : a.SameValue a') (hb : b.SameValue b') :
    (Tree.binary op a b).SameValue (.binary op a' b') := by
  intro I ρ
  rw [exact_binary, exact_binary, ha, hb]

/-- The right operand had a sign in front. -/
theorem signs (hop : op.isSign = true) (ho : o.isSign = true) (ha : a.SameValue a')
    (hb : b.SameValue (.binary o .zero c)) (hc : c.SameValue c') :
    (Tree.binary op a b).SameValue (.binary (signProduct op o) a' c') := by
  intro I ρ
  rw [exact_binary, exact_binary, ha, ← hb, exact_binary, exact_zero, hc,
    both_signProduct hop ho]

theorem number (ho : o.isSign = true) (d : Decimal) :
    (Tree.number (signedValue o d)).SameValue (.binary o .zero (.number d)) := by
  intro I ρ
  rw [exact_binary, exact_zero]
  exact (toRat?_signedValue ho d).symm

end Tree.SameValue

namespace Formula

/-! ### Numbers with a sign -/

theorem number?_sign {o : Binary} (ho : o.isSign = true) {s : List Char} {a : Decimal}
    (h : number? (o.symbol ++ s) = some a) :
    ∃ b, number? s = some b ∧ a = signedValue o b := by
  have hnumber := isNumber_of_number? h
  rw [number?, if_pos hnumber, ← ofText?_withoutLineEnd] at h
  have hne : s ≠ [] := by
    rintro rfl
    cases o with
    | plus | minus => cases hnumber
    | _ => cases ho
  have hmagnitude : isMagnitude (withoutLineEnd s) = true := by
    cases o with
    | plus | minus =>
      rw [isNumber, Binary.symbol, List.singleton_append, withoutLineEnd_cons hne] at hnumber
      exact hnumber
    | _ => cases ho
  have hs : isNumber s = true := by
    rw [isNumber, splitSign_of_isMagnitude hmagnitude]
    exact hmagnitude
  rw [number?, if_pos hs, ← ofText?_withoutLineEnd]
  cases o with
  | plus =>
    rw [Binary.symbol, List.singleton_append, withoutLineEnd_cons hne,
      ofText?_cons_plus hmagnitude] at h
    exact ⟨a, h, rfl⟩
  | minus =>
    rw [Binary.symbol, List.singleton_append, withoutLineEnd_cons hne,
      ofText?_cons_minus hmagnitude, Option.map_eq_some_iff] at h
    obtain ⟨b, hb, rfl⟩ := h
    exact ⟨b, hb, rfl⟩
  | _ => cases ho

/-! ### One sign for two -/

/-- What a way of reading makes of pairs of signs. -/
structure KeepsValues (below : List Char → Except Failure Tree) : Prop where
  ne_nil {s : List Char} {t : Tree} : below s = .ok t → s ≠ []
  /-- Texts with one sign in place of some pairs of signs are read as well. -/
  collapses {s s' : List Char} {t : Tree} : Collapses s s' → below s = .ok t →
    ∃ t', below s' = .ok t' ∧ t.SameValue t'
  /-- An operand with a sign in front is subtracted from zero, or added to it. -/
  sign {o : Binary} {s : List Char} {t : Tree} : o.isSign = true →
    argument (some (.binary o)) s = (s, []) → below (o.symbol ++ s) = .ok t →
    ∃ a, below s = .ok a ∧ t.SameValue (.binary o .zero a)

section
variable {below : List Char → Except Failure Tree} {whole whole' s s' : List Char}
  {tree tree' : Option Tree} {t : Tree}

/-- One step of two chains: if the operands make trees of the same value and so do the chains behind
them, the chains do. -/
theorem exists_readChain_binary {op op' : Binary}
    (hm : Operator.longestMatch (op.symbol ++ s) = some (.binary op))
    (hm' : Operator.longestMatch (op'.symbol ++ s') = some (.binary op'))
    (hsign : op.isSign = true → op'.isSign = true) (htree : Option.Rel Tree.SameValue tree tree')
    (hoperand : ∀ right, below (argument (some (.binary op)) s).1 = .ok right →
      (argument (some (.binary op')) s').1 ≠ [] ∧
        ∃ right', below (argument (some (.binary op')) s').1 = .ok right' ∧
          ∀ l l', l.SameValue l' → (Tree.binary op l right).SameValue (.binary op' l' right'))
    (hrest : ∀ first first', first.SameValue first' →
      readChain below whole (some first) (argument (some (.binary op)) s).2 = .ok t →
        ∃ t', readChain below whole' (some first') (argument (some (.binary op')) s').2 = .ok t' ∧
          t.SameValue t')
    (ht : readChain below whole tree (op.symbol ++ s) = .ok t) :
    ∃ t', readChain below whole' tree' (op'.symbol ++ s') = .ok t' ∧ t.SameValue t' := by
  obtain ⟨-, hfirst, right, hright, hchain⟩ := (readChain_binary_eq_ok_iff hm).mp ht
  obtain ⟨hne, right', hright', hvalue⟩ := hoperand right hright
  have hleft : (tree.getD .zero).SameValue (tree'.getD .zero) := by
    cases htree with
    | none => exact .refl _
    | some h => exact h
  obtain ⟨t', ht', hsame⟩ := hrest _ _ (hvalue _ _ hleft) hchain
  refine ⟨t', (readChain_binary_eq_ok_iff hm').mpr ⟨hne, ?_, right', hright', ht'⟩, hsame⟩
  rintro rfl
  cases htree
  exact hsign (hfirst rfl)

namespace KeepsValues

variable (hbelow : KeepsValues below)
include hbelow

/-- The operands of an operator in two texts. -/
theorem exists_operand (p : Option Operator) (h : Collapses s s')
    (ht : below (argument p s).1 = .ok t) :
    (argument p s').1 ≠ [] ∧ ∃ t', below (argument p s').1 = .ok t' ∧ t.SameValue t' := by
  have hoperand := (h.operand (p := p) fun _ => rfl).1
  exact ⟨mt hoperand.eq_nil_iff.mpr (hbelow.ne_nil ht), hbelow.collapses hoperand ht⟩

theorem exists_readChain (h : Collapses s s') (htree : Option.Rel Tree.SameValue tree tree')
    (ht : readChain below whole tree s = .ok t) :
    ∃ t', readChain below whole' tree' s' = .ok t' ∧ t.SameValue t' := by
  obtain ⟨n, hn⟩ : ∃ n, n = s.length := ⟨_, rfl⟩
  induction n using Nat.strong_induction_on generalizing tree tree' s s' with
  | _ n ih =>
    subst hn
    -- behind a first operand of the same value
    have hbehind : ∀ {v v' : List Char} {first first' : Tree}, v.length < s.length →
        Collapses v v' → first.SameValue first' → readChain below whole (some first) v = .ok t →
          ∃ t', readChain below whole' (some first') v' = .ok t' ∧ t.SameValue t' :=
      fun hlt hv hfirst hread => ih _ hlt hv (.some hfirst) hread rfl
    cases h.begin with
    | nil =>
      cases htree with
      | none =>
        rw [readChain] at ht
        cases ht
      | some hvalue =>
        rw [readChain_some_nil] at ht
        cases ht
        exact ⟨_, readChain_some_nil _, hvalue⟩
    | @character c s s' hc hm hm' hrest =>
      obtain ⟨rfl, hne, left, hleft, hchain⟩ :=
        (readChain_operand_eq_ok_iff (List.cons_ne_nil c s) hm).mp ht
      cases htree
      obtain ⟨hne', left', hleft', hvalue⟩ := hbelow.exists_operand none h hleft
      have hv := (h.operand (p := none) fun _ => rfl).2
      have hlt : (argument none (c :: s)).2.length < (c :: s).length := by
        have happend := congrArg List.length (argument_append none (c :: s))
        have := List.length_pos_of_ne_nil (hbelow.ne_nil hleft)
        rw [List.length_append] at happend
        omega
      obtain ⟨t', ht', hsame⟩ := hbehind hlt hv hvalue hchain
      refine ⟨t', (readChain_operand_eq_ok_iff (List.cons_ne_nil c s') hm').mpr ?_, hsame⟩
      exact ⟨rfl, mt hv.eq_nil_iff.mpr hne, left', hleft', ht'⟩
    | @operator op s s' hm hm' hrest =>
      have hlt := length_argument_drop_lt hm (some op)
      rw [List.drop_left] at hlt
      have hv := (hrest.operand (p := some op) fun _ => rfl).2
      cases op with
      | unary op =>
        obtain ⟨-, rfl, a, ha, hchain⟩ := (readChain_unary_eq_ok_iff hm).mp ht
        cases htree
        obtain ⟨hne', a', ha', hvalue⟩ := hbelow.exists_operand (some (.unary op)) hrest ha
        obtain ⟨t', ht', hsame⟩ := hbehind hlt hv (hvalue.unary op) hchain
        exact ⟨t', (readChain_unary_eq_ok_iff hm').mpr ⟨hne', rfl, a', ha', ht'⟩, hsame⟩
      | binary op =>
        refine exists_readChain_binary hm hm' id htree (fun right hright => ?_)
          (fun first first' hfirst => hbehind hlt hv hfirst) ht
        obtain ⟨hne', right', hright', hvalue⟩ :=
          hbelow.exists_operand (some (.binary op)) hrest hright
        exact ⟨hne', right', hright', fun l l' hl => hl.binary op hvalue⟩
    | @signs op o s s' hop ho hrest =>
      have hproduct := Phrase.isSign_signProduct op o
      have hm := longestMatch_sign hop (o.symbol ++ s)
      have hlt := length_argument_drop_lt hm (some (.binary op))
      rw [Operator.symbol_binary, List.drop_left] at hlt
      obtain ⟨w, hw, halone, hcollapses, hv⟩ := hrest.exists_operand_sign hop ho
      refine exists_readChain_binary hm (longestMatch_sign hproduct s') (fun _ => hproduct) htree
        (fun right hright => ?_) (fun first first' hfirst => hbehind hlt hv hfirst) ht
      rw [hw] at hright
      obtain ⟨a, ha, hvalue⟩ := hbelow.sign ho halone hright
      obtain ⟨a', ha', hsame⟩ := hbelow.collapses hcollapses ha
      refine ⟨mt hcollapses.eq_nil_iff.mpr (hbelow.ne_nil ha), a', ha', fun l l' hl => ?_⟩
      exact .signs hop ho hl hvalue hsame

end KeepsValues

end

/-! ### Levels -/

section
variable {levels : Nat} {s : List Char} {t : Tree}

theorem isName_sign {o : Binary} (s : List Char) : isName (o.symbol ++ s) = false :=
  @isName_of_contains (.binary o) _ (List.prefix_append _ _).isInfix

theorem readLevels_sign {o : Binary} (s : List Char) :
    readLevels (levels + 1) (o.symbol ++ s) =
      match number? (o.symbol ++ s) with
      | some a => .ok (.number a)
      | none => readChain (readLevels levels) (o.symbol ++ s) none (o.symbol ++ s) :=
  Phrase.readLevels_succ
    (List.append_ne_nil_of_left_ne_nil (Operator.binary o).symbol_ne_nil s)
    (Phrase.enclosed?_of_head? (Phrase.head?_symbol_ne (.binary o) s)) (isName_sign s)

theorem readLevels_of_number? {a : Decimal} (h : number? s = some a) :
    readLevels (levels + 1) s = .ok (.number a) := by
  have hnumber := isNumber_of_number? h
  have hne : s ≠ [] := by
    rintro rfl
    cases h
  have henclosed : enclosed? s = none := by
    refine Phrase.enclosed?_of_head? ?_
    rintro c hc rfl
    exact absurd (isBracket_of_isNumber hnumber '(' (List.mem_of_mem_head? hc)) (by decide)
  rw [Phrase.readLevels_succ hne henclosed (isName_of_isNumber hnumber), h]

/-- No operator stands behind the first character of a number. -/
theorem not_infix_of_isNumber {c : Char} (h : isNumber (c :: s) = true) (op : Operator) :
    ¬op.symbol <:+: s := by
  rintro ⟨v, w, rfl⟩
  rw [List.append_assoc, Phrase.isNumber_of_symbol] at h
  cases h

/-- Only a sign begins a number. -/
theorem exists_sign_of_isNumber {op : Operator} (h : isNumber (op.symbol ++ s) = true) :
    ∃ o : Binary, o.isSign = true ∧ op = .binary o := by
  by_contra hnot
  have hop : op ≠ .binary .plus ∧ op ≠ .binary .minus := by
    refine ⟨?_, ?_⟩ <;> rintro rfl <;> exact hnot ⟨_, rfl, rfl⟩
  obtain ⟨c, v, hc⟩ := List.exists_cons_of_ne_nil op.symbol_ne_nil
  have hmem : c ∈ op.symbol := hc ▸ List.mem_cons_self ..
  have hsign := isSignChar_of_mem_symbol op hop c hmem
  rw [isSignChar, Bool.or_eq_false_iff, decide_eq_false_iff_not, decide_eq_false_iff_not] at hsign
  rcases mem_isNumber h (List.mem_append_left s hmem) with hdigit | hmark
  · rw [op.isDigit_head (c := c) (by rw [hc]; rfl)] at hdigit
    cases hdigit
  simp only [List.mem_cons, List.not_mem_nil, or_false] at hmark
  rcases hmark with rfl | rfl | rfl | rfl
  · exact op.not_mem_symbol (by decide) hmem
  · exact hsign.1 rfl
  · exact hsign.2 rfl
  · exact op.not_mem_symbol (by decide) hmem

/-- A text that is read as a chain has an operator in it. -/
theorem exists_infix_of_readChain {below : List Char → Except Failure Tree} {whole : List Char}
    (hs : s ≠ []) (h : readChain below whole none s = .ok t) :
    ∃ op : Operator, op.symbol <:+: s := by
  cases hm : Operator.longestMatch s with
  | some op => exact ⟨op, (Operator.symbol_prefix_of_longestMatch hm).isInfix⟩
  | none =>
    obtain ⟨-, op, hop⟩ := exists_of_readChain_operand hs hm h
    have hsuffix : (argument none s).2 <:+ s := ⟨_, argument_append none s⟩
    exact ⟨_, (Operator.symbol_prefix_of_longestMatch hop).isInfix.trans hsuffix.isInfix⟩

/-- A number that is read as a chain is a sign with a number behind it. -/
theorem exists_of_readChain_isNumber (hnumber : isNumber s = true)
    {below : List Char → Except Failure Tree} {whole : List Char}
    (h : readChain below whole none s = .ok t) :
    ∃ (o : Binary) (w : List Char) (right : Tree), o.isSign = true ∧ s = o.symbol ++ w ∧
      below w = .ok right ∧ t = .binary o .zero right := by
  have hs : s ≠ [] := by
    rintro rfl
    cases hnumber
  cases hm : Operator.longestMatch s with
  | none =>
    -- the operator would stand behind the first character
    obtain ⟨op, v, w, rfl⟩ := exists_infix_of_readChain hs h
    cases v with
    | nil => exact absurd ⟨w, by simp⟩ (Operator.longestMatch_eq_none_iff.mp hm op)
    | cons c v =>
      rw [List.cons_append, List.cons_append] at hnumber
      exact absurd ⟨v, w, rfl⟩ (not_infix_of_isNumber hnumber op)
  | some op =>
    obtain ⟨w, rfl⟩ := Operator.symbol_prefix_of_longestMatch hm
    obtain ⟨o, ho, rfl⟩ := exists_sign_of_isNumber hnumber
    obtain ⟨c, hc, -⟩ := exists_symbol_of_isSign ho
    have hargument : argument (some (.binary o)) w = (w, []) := by
      refine argumentFrom_of_not_infix (fun d hd => ?_) ?_
      · exact isBracket_of_isNumber hnumber d (List.mem_append_right _ hd)
      · rw [Operator.symbol_binary, hc, List.singleton_append] at hnumber
        exact not_infix_of_isNumber hnumber
    obtain ⟨-, -, right, hright, hchain⟩ := (readChain_binary_eq_ok_iff hm).mp h
    rw [hargument] at hright hchain
    rw [readChain_some_nil] at hchain
    exact ⟨o, w, right, ho, rfl, hright, (Except.ok.inj hchain).symm⟩

/-- What is read as a chain has the same value if it is read as a number instead. -/
theorem exists_readLevels_of_readChain (hs : s ≠ []) (henclosed : enclosed? s = none)
    (h : readChain (readLevels levels) s none s = .ok t) :
    ∃ t', readLevels (levels + 1) s = .ok t' ∧ t.SameValue t' := by
  cases hnumber : number? s with
  | none =>
    obtain ⟨op, hop⟩ := exists_infix_of_readChain hs h
    refine ⟨t, ?_, .refl t⟩
    rw [Phrase.readLevels_succ hs henclosed (isName_of_contains hop), hnumber]
    exact h
  | some a =>
    refine ⟨.number a, readLevels_of_number? hnumber, ?_⟩
    obtain ⟨o, w, right, ho, rfl, hright, rfl⟩ :=
      exists_of_readChain_isNumber (isNumber_of_number? hnumber) h
    obtain ⟨b, hb, rfl⟩ := number?_sign ho hnumber
    cases levels with
    | zero => cases hright
    | succ levels =>
      rw [readLevels_of_number? hb] at hright
      cases hright
      exact (Tree.SameValue.number ho b).symm

/-- There is no pair of signs in a name, and none in a number. -/
theorem Collapses.eq_of_atom {s' : List Char} (h : Collapses s s')
    (hatom : isName s = true ∨ isNumber s = true) : s' = s := by
  refine h.eq_of_tail fun c hc => ?_
  rcases hatom with hname | hnumber
  · rcases mem_isName hname (List.mem_of_mem_tail hc) with hword | rfl
    · exact isSignChar_of_isWordChar hword
    · decide
  · obtain ⟨d, v, rfl⟩ := List.exists_cons_of_ne_nil (List.ne_nil_of_mem (List.mem_of_mem_tail hc))
    rw [isSignChar, Bool.or_eq_false_iff, decide_eq_false_iff_not, decide_eq_false_iff_not]
    rcases Phrase.mem_tail_isNumber hnumber hc with hdigit | rfl | rfl
    · refine ⟨?_, ?_⟩ <;> rintro rfl <;> revert hdigit <;> decide
    · decide
    · decide

/-- What is read with a sign in front is read without it. -/
theorem exists_readLevels_of_sign {o : Binary} (ho : o.isSign = true)
    (halone : argument (some (.binary o)) s = (s, []))
    (h : readLevels (levels + 1) (o.symbol ++ s) = .ok t) :
    ∃ a, readLevels (levels + 1) s = .ok a ∧ t.SameValue (.binary o .zero a) := by
  rw [readLevels_sign] at h
  cases hnumber : number? (o.symbol ++ s) with
  | some a =>
    rw [hnumber] at h
    cases h
    obtain ⟨b, hb, rfl⟩ := number?_sign ho hnumber
    exact ⟨.number b, readLevels_of_number? hb, .number ho b⟩
  | none =>
    rw [hnumber] at h
    obtain ⟨-, -, right, hright, hchain⟩ :=
      (readChain_binary_eq_ok_iff (longestMatch_sign ho s)).mp h
    rw [halone] at hright hchain
    rw [readChain_some_nil] at hchain
    cases hchain
    exact ⟨right, readLevels_of_le (Nat.le_succ levels) hright, .refl _⟩

namespace KeepsValues

variable (hbelow : KeepsValues (readLevels levels))
include hbelow

theorem collapses_succ {s' : List Char} (hcollapses : Collapses s s')
    (h : readLevels (levels + 1) s = .ok t) :
    ∃ t', readLevels (levels + 1) s' = .ok t' ∧ t.SameValue t' := by
  have hne : s ≠ [] := by
    rintro rfl
    cases h
  have henclosed := hcollapses.rel_enclosed?
  cases hs : enclosed? s with
  | some inner =>
    obtain ⟨inner', hs', hinner⟩ : ∃ inner', enclosed? s' = some inner' ∧
        Collapses inner inner' := by
      rw [hs] at henclosed
      generalize enclosed? s' = e at henclosed ⊢
      cases henclosed with
      | some hinner => exact ⟨_, rfl, hinner⟩
    rw [readLevels_of_enclosed? hs] at h
    rw [readLevels_of_enclosed? hs']
    exact hbelow.collapses hinner h
  | none =>
    have hs' : enclosed? s' = none := by
      rw [hs] at henclosed
      generalize enclosed? s' = e at henclosed ⊢
      cases henclosed
      rfl
    by_cases hatom : isName s = true ∨ isNumber s = true
    · rw [hcollapses.eq_of_atom hatom]
      exact ⟨t, h, .refl t⟩
    · rw [not_or, Bool.not_eq_true] at hatom
      rw [Phrase.readLevels_succ hne hs hatom.1, number?, if_neg hatom.2] at h
      obtain ⟨t', ht', hsame⟩ : ∃ t', readChain (readLevels levels) s' none s' = .ok t' ∧
          t.SameValue t' := hbelow.exists_readChain hcollapses .none h
      obtain ⟨t'', ht'', hsame'⟩ :=
        exists_readLevels_of_readChain (mt hcollapses.eq_nil_iff.mpr hne) hs' ht'
      exact ⟨t'', ht'', hsame.trans hsame'⟩

end KeepsValues

/-- The reader reads texts with one sign in place of some pairs of signs, and makes trees of the
same value of them. -/
theorem keepsValues_readLevels (levels : Nat) : KeepsValues (readLevels levels) := by
  induction levels with
  | zero =>
    have hnone : ∀ {s : List Char} {t : Tree}, readLevels 0 s ≠ .ok t := by
      rintro s t ⟨⟩
    exact ⟨fun h => absurd h hnone, fun _ h => absurd h hnone, fun _ _ h => absurd h hnone⟩
  | succ levels ih =>
    refine ⟨?_, ih.collapses_succ, exists_readLevels_of_sign⟩
    rintro s t h rfl
    cases h

/-- What is read is read with its signs collapsed as well, and both trees have the same value, or
none, whatever powers, logarithms and functions are. -/
theorem read_collapseSigns (h : read s = .ok t) :
    ∃ t', read (collapseSigns s) = .ok t' ∧
      ∀ (I : Interpretation) (ρ : String → ℚ), t'.exact I ρ = t.exact I ρ :=
  (keepsValues_readLevels (maxDepth + 1)).collapses (collapses_collapseSigns s) h

/-- Of three signs in a row two stay. -/
theorem read_collapseSigns_three_signs :
    let s : List Char := ['2', '*', '-', '-', 'x', '-', '+', '-', 'y']
    let t : Tree := .binary .minus
      (.binary .times (.number (.ofNat 2)) (.binary .minus .zero (.binary .minus .zero (.var "x"))))
      (.binary .plus .zero (.binary .minus .zero (.var "y")))
    read s = .ok t ∧ ∃ t', read ['2', '*', '+', 'x', '-', '-', 'y'] = .ok t' ∧
      ∀ (I : Interpretation) (ρ : String → ℚ), t'.exact I ρ = t.exact I ρ := by
  intro s t
  have hs : read s = .ok t := by decide +kernel
  exact ⟨hs, read_collapseSigns hs⟩

end

end Formula

end Reckon
