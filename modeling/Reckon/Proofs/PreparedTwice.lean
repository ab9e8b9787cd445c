import Reckon.Proofs.Memory
import Reckon.Proofs.NeatNames
import Reckon.Proofs.Unknowns
import Reckon.Proofs.Validated

/-!
# Preparing twice

What has been prepared, is no nonsense and can be read is not changed by preparing it again
(`prepare_of_read`). Nothing but `*` between neighbours could be put in a second time. Where the
first run put none, the second sees the same neighbours, except that its look back for an operator
in front of a bracket may end at a `*` that the first run wrote. But in a text that is read every
bracket begins an operand (`Spells.opensOperand`), and behind a letter that is the end of a symbol.
-/

namespace Reckon.Formula

open Reckon.Text

/-! ### Characters of valid texts -/

theorem isPlainChar_of_isPermitted {c : Char} (h : isPermitted c = true) (hc : IsSmall c) :
    isPlainChar c = true := by
  have hallowed : ∀ c ∈ ['(', ')', '.', '>', '<', '&', '=', '|'], isPlainChar c = true := by
    decide
  rw [isPermitted, isAllowedSymbol, Bool.or_eq_true, Bool.or_eq_true, isAsciiLetter_iff,
    isAsciiDigit_iff, List.contains_iff_mem] at h
  rcases h with (h | h) | h
  · have hcapital := hc.1
    rw [isPlainChar_iff]
    omega
  · rw [isPlainChar_iff]
    omega
  · exact hallowed c h

/-- A valid text without capitals is made of plain characters. -/
theorem isPlainChar_of_validateCharacters {s : List Char} (h : validateCharacters s = .ok ())
    (hsmall : ∀ c ∈ s, IsSmall c) : ∀ c ∈ s, isPlainChar c = true := by
  induction s with
  | nil => simp
  | cons c s ih =>
    have hfirst : isPlainChar c = true ∧ validateCharacters s = .ok () := by
      rw [validateCharacters] at h
      split at h
      · rename_i op hm
        obtain ⟨t, ht⟩ := Operator.symbol_prefix_of_longestMatch hm
        have hc : c ∈ op.symbol.head? := by
          rw [← op.head?_symbol_append t, ht]
          rfl
        refine ⟨isPlainChar_of_mem_symbol op c (List.mem_of_mem_head? hc), ?_⟩
        split at h
        · split at h
          · exact h
          · cases h
        · exact h
      · split at h
        · rename_i hc
          exact ⟨isPlainChar_of_isPermitted hc (hsmall c (List.mem_cons_self ..)), h⟩
        · cases h
    intro d hd
    rcases List.mem_cons.mp hd with rfl | hd
    · exact hfirst.1
    · exact ih hfirst.2 (fun c hc => hsmall c (List.mem_cons_of_mem _ hc)) d hd

/-! ### Brackets -/

theorem append_eq_append_cons {x y a b : List Char} {c : Char} (h : x ++ y = a ++ c :: b) :
    (∃ z, x = a ++ c :: z ∧ b = z ++ y) ∨ ∃ z, a = x ++ z ∧ y = z ++ c :: b := by
  rcases List.append_eq_append_iff.mp h with ⟨z, ha, hy⟩ | ⟨z, hx, hz⟩
  · exact .inr ⟨z, ha, hy⟩
  cases z with
  | nil => exact .inr ⟨[], by simpa using hx.symm, hz.symm⟩
  | cons c' z =>
    obtain ⟨rfl, hb⟩ := List.cons.inj hz
    exact .inl ⟨z, hx, hb⟩

/-- In the text of a tree an operand begins at every bracket that is opened. -/
theorem Spells.opensOperand {s : List Char} {t : Tree} (h : Spells s t) {before a b : List Char}
    (hbefore : OpensOperand before) (hs : s = a ++ '(' :: b) : OpensOperand (before ++ a) := by
  -- a bracket behind a symbol stands in the operand
  have hbehind : ∀ (op : Operator) {s a b : List Char}, op.symbol ++ s = a ++ '(' :: b →
      ∃ a', a = op.symbol ++ a' ∧ s = a' ++ '(' :: b := by
    intro op s a b hs
    rcases append_eq_append_cons hs with ⟨z, hop, -⟩ | h
    · exact absurd (by rw [hop]; simp) (op.not_mem_symbol (c := '(') (by decide))
    · exact h
  have hopens : ∀ (op : Operator) (before : List Char), OpensOperand (before ++ op.symbol) :=
    fun op before => .inr (.inr ⟨op, List.suffix_append before op.symbol⟩)
  induction h generalizing before a b with
  | @inBrackets s t _ ih =>
    cases a with
    | nil => simpa using hbefore
    | cons c a =>
      obtain ⟨rfl, hinner⟩ := List.cons.inj hs
      rcases append_eq_append_cons hinner with ⟨z, hz, -⟩ | ⟨z, -, hz⟩
      · have hopen : OpensOperand (before ++ ['(']) := .inr (.inl List.getLast?_concat)
        have := ih hopen hz
        rwa [List.append_assoc] at this
      · have hclose : '(' ∈ [')'] := by rw [hz]; simp
        exact absurd hclose (by decide)
  | name hname =>
    have := isBracket_of_isName hname '(' (by rw [hs]; simp)
    cases this
  | number hnumber =>
    have := isBracket_of_isNumber (isNumber_of_number? hnumber) '(' (by rw [hs]; simp)
    cases this
  | @sign op s t _ _ ih =>
    obtain ⟨a', rfl, hoperand⟩ := hbehind (.binary op) hs
    rw [← List.append_assoc]
    exact ih (hopens (.binary op) before) hoperand
  | @unary op s t _ ih =>
    obtain ⟨a', rfl, hoperand⟩ := hbehind (.unary op) hs
    rw [← List.append_assoc]
    exact ih (hopens (.unary op) before) hoperand
  | @binary op s s' t t' _ _ ih ih' =>
    rcases append_eq_append_cons hs with ⟨z, hleft, -⟩ | ⟨z, rfl, hright⟩
    · exact ih hbefore hleft
    · obtain ⟨a', rfl, hoperand⟩ := hbehind (.binary op) hright
      rw [← List.append_assoc, ← List.append_assoc]
      exact ih' (hopens (.binary op) (before ++ s)) hoperand

/-- A bracket behind the letter `d` has the end of a symbol in front of it. -/
theorem backTrack_of_opensOperand {before : List Char} {d : Char}
    (hletter : isAsciiLetter d = true) (h : OpensOperand (d :: before).reverse) :
    (backTrack (d :: before)).isNone = false := by
  rcases h with hnil | hopen | ⟨op, hop⟩
  · simp at hnil
  · rw [List.getLast?_reverse, List.head?_cons, Option.some.injEq] at hopen
    rw [hopen] at hletter
    cases hletter
  · rw [← List.reverse_prefix, List.reverse_reverse] at hop
    obtain ⟨op', hback, -⟩ := exists_operatorAtEnd ((symbol_suffix_take_iff op).mpr hop)
    rw [backTrack, hback]
    rfl

/-! ### Putting `*` between neighbours twice -/

/-- What begins a text with products and has no `*` in it begins the text without them. -/
theorem prefix_of_prefix_insertProductsFrom {w before s : List Char} (hw : '*' ∉ w)
    (h : w <+: insertProductsFrom before s) : w <+: s := by
  cases s with
  | nil => rwa [insertProductsFrom] at h
  | cons c s =>
    obtain ⟨star, u, v, hs, hne, -, hstar, heq⟩ := exists_insertProductsFrom before c s
    have hlt := length_lt_of_eq_append hs hne
    rw [heq] at h
    rw [hs]
    rcases hstar with rfl | ⟨rfl, -⟩
    · cases w with
      | nil => exact List.nil_prefix
      | cons d w =>
        rw [List.singleton_append, List.cons_prefix_cons] at h
        exact absurd (by rw [h.1]; simp) hw
    · rcases List.prefix_or_prefix_of_prefix h (List.prefix_append u _) with hu | ⟨w', rfl⟩
      · exact hu.trans (List.prefix_append u v)
      · rw [List.nil_append, List.prefix_append_right_inj] at h
        rw [List.prefix_append_right_inj]
        exact prefix_of_prefix_insertProductsFrom
          (fun hmem => hw (List.mem_append_right u hmem)) h
termination_by s.length

section
variable {before before' u v : List Char} {c : Char} {op : Operator}

/-- Only the symbol of the product has `*` in it. -/
theorem eq_times_of_mem (hop : '*' ∈ op.symbol) : op = .binary .times :=
  Operator.forall_of_byLength (p := fun op => '*' ∈ op.symbol → op = .binary .times) (by decide)
    op hop

theorem longestMatch_star (s : List Char) :
    Operator.longestMatch ('*' :: s) = some (.binary .times) := by
  refine Operator.longestMatch_eq_some_iff.mpr ⟨⟨s, rfl⟩, fun op hop => ?_⟩
  obtain ⟨t, ht⟩ := hop
  have hhead : '*' ∈ op.symbol.head? := by
    rw [← op.head?_symbol_append t, ht]
    rfl
  rw [eq_times_of_mem (List.mem_of_mem_head? hhead)]

/-- The symbols that begin a text with products behind its first piece begin it without them. -/
theorem symbol_prefix_of_insertProductsFrom (hu : u ≠ [])
    (h : op.symbol <+: u ++ insertProductsFrom before v) : op.symbol <+: u ++ v := by
  by_cases hop : '*' ∈ op.symbol
  · obtain ⟨c, u, rfl⟩ := List.exists_cons_of_ne_nil hu
    rw [eq_times_of_mem hop] at h ⊢
    obtain ⟨t, ht⟩ := h
    obtain ⟨rfl, -⟩ := List.cons.inj ht
    exact ⟨u ++ v, rfl⟩
  · rcases List.prefix_or_prefix_of_prefix h (List.prefix_append u _) with hpre | ⟨w, hw⟩
    · exact hpre.trans (List.prefix_append u v)
    · rw [← hw] at h hop ⊢
      rw [List.prefix_append_right_inj] at h ⊢
      exact prefix_of_prefix_insertProductsFrom
        (fun hmem => hop (List.mem_append_right u hmem)) h

/-- Products that are put in behind the first piece of a text leave it the first piece. -/
theorem longestMatch_insertProductsFrom (hu : u ≠ [])
    (hpiece : Operator.longestMatch (u ++ v) = none ∨
      ∃ op, Operator.longestMatch (u ++ v) = some op ∧ u = op.symbol) :
    Operator.longestMatch (u ++ insertProductsFrom before v) =
      Operator.longestMatch (u ++ v) := by
  rcases hpiece with hm | ⟨op, hm, rfl⟩
  · rw [hm, Operator.longestMatch_eq_none_iff]
    exact fun op hop => Operator.longestMatch_eq_none_iff.mp hm op
      (symbol_prefix_of_insertProductsFrom hu hop)
  · rw [hm, Operator.longestMatch_eq_some_iff]
    exact ⟨List.prefix_append _ _, fun op' hop' => Operator.length_le_of_longestMatch hm
      (symbol_prefix_of_insertProductsFrom hu hop')⟩

/-- Where no product was meant none is meant behind the same character, not even in front of a
bracket if that begins an operand. -/
theorem meansProduct_again {op : Option Operator} (hhead : before'.head? = before.head?)
    (hopen : c = '(' → OpensOperand before'.reverse) (h : meansProduct before c op = false) :
    meansProduct before' c op = false := by
  cases before' with
  | nil => rfl
  | cons d before' =>
    cases before with
    | nil => cases hhead
    | cons d' before =>
      obtain rfl := Option.some.inj hhead
      simp only [meansProduct, Bool.or_eq_false_iff] at h ⊢
      refine ⟨h.1, ?_⟩
      by_contra hmeans
      simp only [Bool.not_eq_false, Bool.and_eq_true, decide_eq_true_eq] at hmeans
      obtain ⟨⟨hletter, hc⟩, hback⟩ := hmeans
      rw [backTrack_of_opensOperand hletter (hopen hc)] at hback
      cases hback

end

/-- Nothing is put in a second time into the text `p`, of which `before'` has been run over. -/
theorem insertProductsFrom_again {p before before' s : List Char}
    (hopen : ∀ a b, p = a ++ '(' :: b → OpensOperand a) (hhead : before'.head? = before.head?)
    (hp : p = before'.reverse ++ insertProductsFrom before s) :
    insertProductsFrom before' (insertProductsFrom before s) = insertProductsFrom before s := by
  cases s with
  | nil => rw [insertProductsFrom, insertProductsFrom]
  | cons c s =>
    obtain ⟨star, u, v, hs, hne, hu, hstar, heq⟩ := exists_insertProductsFrom before c s
    have hlt := length_lt_of_eq_append hs hne
    obtain ⟨u', rfl⟩ : ∃ u', u = c :: u' := by
      obtain ⟨d, u', rfl⟩ := List.exists_cons_of_ne_nil hne
      obtain ⟨rfl, -⟩ := List.cons.inj hs
      exact ⟨u', rfl⟩
    rw [heq] at hp ⊢
    set rest := insertProductsFrom ((c :: u').reverse ++ before) v with hrest
    have hmatch : Operator.longestMatch (c :: u' ++ rest) = Operator.longestMatch (c :: s) := by
      rw [hs] at hu ⊢
      exact longestMatch_insertProductsFrom hne (hu.imp And.left id)
    -- behind the first piece it goes on as before
    have hpiece : ∀ front : List Char, p = front.reverse ++ (c :: u' ++ rest) →
        meansProduct front c (Operator.longestMatch (c :: s)) = false →
        insertProductsFrom front (c :: u' ++ rest) = c :: u' ++ rest := by
      intro front hfront hmeans
      have hnext : insertProductsFrom ((c :: u').reverse ++ front) rest = rest := by
        refine insertProductsFrom_again hopen ?_ ?_
        · simp
        · rw [hfront, List.reverse_append, List.reverse_reverse, List.append_assoc]
      rcases hu with ⟨hm, hc⟩ | ⟨op, hm, hop⟩
      · obtain ⟨-, rfl⟩ := List.cons.inj hc
        rw [hm] at hmatch hmeans
        rw [List.singleton_append] at hmatch ⊢
        rw [insertProductsFrom_cons hmatch hmeans]
        exact congrArg _ hnext
      · rw [hop] at hmatch hnext ⊢
        rw [hm] at hmatch hmeans
        rw [insertProductsFrom_symbol hmatch, hnext]
        rintro d hd
        rw [← hop] at hd
        obtain rfl := Option.some.inj hd
        exact hmeans
    rcases hstar with rfl | ⟨rfl, hmeans⟩
    · have hstar : insertProductsFrom before' ('*' :: (c :: u' ++ rest)) =
          '*' :: insertProductsFrom ('*' :: before') (c :: u' ++ rest) :=
        @insertProductsFrom_symbol before' _ (.binary .times) (longestMatch_star _)
          fun d hd => meansProduct_binary (by rintro rfl; revert hd; decide) .times
      rw [List.singleton_append, hstar, hpiece]
      · rw [hp]
        simp
      · refine meansProduct_of_break (fun d hd => ?_) _
        obtain rfl := Option.some.inj hd
        decide
    · refine hpiece before' hp (meansProduct_again hhead ?_ hmeans)
      rintro rfl
      exact hopen before'.reverse (u' ++ rest) (by rw [hp]; simp)
termination_by s.length

/-! ### Preparing again -/

theorem isAsciiDigit_of_isPlainChar {c : Char} (h : isDigit c = true)
    (hc : isPlainChar c = true) : isAsciiDigit c = true := by
  have hsmall : c.toNat < 128 := by
    rw [isPlainChar_iff] at hc
    omega
  rw [isDigit, digitValue?, if_pos hsmall] at h
  split at h
  · rename_i hdigit
    rw [isAsciiDigit, Bool.and_eq_true, decide_eq_true_eq, decide_eq_true_eq]
    exact hdigit
  · cases h

/-- In a prepared text of plain characters no `e` stands behind a digit. -/
theorem isChain_of_prepare {s p : List Char} (h : prepare s = .ok p)
    (hplain : ∀ c ∈ p, isPlainChar c = true) : p.IsChain IsQuiet := by
  obtain ⟨-, -, hs⟩ := prepare_eq_ok_iff.mp h
  rw [List.isChain_iff_forall_rel_of_append_cons_cons]
  rintro d c a b hp hdigit rfl
  have hd := isAsciiDigit_of_isPlainChar hdigit (hplain d (by rw [hp]; simp))
  rcases letter_of_digit hd (by decide) (hs.trans hp) with hlog | ⟨op, u, v, _, _, hop, -⟩
  · obtain ⟨t, ht⟩ := hlog
    cases ht
  · have hquiet := isChain_symbol (.unary op)
    rw [Operator.symbol_unary, hop, List.isChain_iff_forall_rel_of_append_cons_cons] at hquiet
    exact hquiet rfl hdigit rfl

/-- What was prepared and is read by the reader is prepared. -/
theorem prepare_again {s p : List Char} {t : Tree} (hp : prepare s = .ok p)
    (hlength : p.length ≤ maxLength) (hv : validate p = .ok ()) (hr : read p = .ok t) :
    prepare p = .ok p := by
  have hplain : ∀ c ∈ p, isPlainChar c = true := by
    refine isPlainChar_of_validateCharacters ?_ fun c hc => isSmall_of_prepare hp hc
    rw [validate] at hv
    split at hv
    · exact hv
    · cases hv
  have hne : p ≠ [] := by
    rintro rfl
    cases hr
  have hinsert : insertProducts p = p := by
    obtain ⟨-, -, rfl⟩ := prepare_eq_ok_iff.mp hp
    refine insertProductsFrom_again (fun a b hab => ?_) rfl rfl
    have := (spells_of_read hr).opensOperand (.inl rfl) hab
    simpa using this
  exact prepare_eq_self hlength hne hplain (isChain_of_prepare hp hplain) hinsert

theorem treeAt_congr {s p : List Char} (h : prepare s = prepare p) (stack : CallStack)
    (calls : Nat) : Evaluator.treeAt stack calls s = Evaluator.treeAt stack calls p := by
  rw [Evaluator.treeAt, h, Evaluator.treeAt]

/-- A prepared text that is accepted is prepared already. So evaluating it is evaluating the formula
that it was prepared from, with the same effect on the evaluator, and it is recalled once the
formula has been evaluated. -/
theorem prepare_of_read [Binary64.Library] {s p : List Char} {t : Tree} (hp : prepare s = .ok p)
    (hlength : p.length ≤ maxLength) (hv : validate p = .ok ()) (hr : read p = .ok t) :
    prepare p = .ok p ∧
      ∀ (unit : AngleUnit) (requests : List Evaluator.Request) (bindings : Bindings),
        let e := Evaluator.after requests (.new unit)
        let e' := ((Evaluator.evaluate bindings s).run e).2
        (Evaluator.evaluate bindings s).run e = (Evaluator.evaluate bindings p).run e ∧
          (Evaluator.tree p).run e' = (.ok t, e'.noted (.recalled p)) := by
  have hagain := prepare_again hp hlength hv hr
  refine ⟨hagain, fun unit requests bindings => ?_⟩
  have hsound := (Evaluator.isSound_after (Evaluator.isSound_new unit) .boundless requests).1
  obtain ⟨r, e', hrun, -, -, hkey⟩ := Evaluator.run_evaluate hsound .boundless bindings s
  have hread : readFormula s = .ok t := by rw [readFormula_eq hp hv, hr]
  refine ⟨?_, ?_⟩
  · rw [Evaluator.evaluate, Evaluator.evaluate]
    simp only [evaluateOn, treeAt_congr (hp.trans hagain.symm)]
  · simp only [hrun, Evaluator.tree, Evaluator.run_treeAt, hagain, hkey p t hp hread]

theorem prepare_of_read_product :
    prepare ['2', 'S', 'i', 'n', '(', 'X', ')', ' ', '(', 'y', ')'] =
      .ok ['2', '*', 's', 'i', 'n', '(', 'x', ')', '*', '(', 'y', ')'] ∧
    prepare ['2', '*', 's', 'i', 'n', '(', 'x', ')', '*', '(', 'y', ')'] =
      .ok ['2', '*', 's', 'i', 'n', '(', 'x', ')', '*', '(', 'y', ')'] := by
  have hp : prepare ['2', 'S', 'i', 'n', '(', 'X', ')', ' ', '(', 'y', ')'] =
      .ok ['2', '*', 's', 'i', 'n', '(', 'x', ')', '*', '(', 'y', ')'] := by
    decide +kernel
  have hv : validate ['2', '*', 's', 'i', 'n', '(', 'x', ')', '*', '(', 'y', ')'] = .ok () := by
    decide +kernel
  have hr : read ['2', '*', 's', 'i', 'n', '(', 'x', ')', '*', '(', 'y', ')'] =
      .ok (.binary .times (.binary .times (.number .two) (.unary .sin (.var "x"))) (.var "y")) := by
    decide +kernel
  exact ⟨hp, (prepare_of_read hp (by decide) hv hr).1⟩

end Reckon.Formula
