import Reckon.Proofs.OperandPieces
import Reckon.Proofs.Printing

/-!
# Pairs of signs

`Collapses s s'`: the text `s'` is `s` with one sign in place of some of its pairs of signs. Such
texts begin alike (`Collapses.begin`), have their brackets in the same places
(`Collapses.exists_closing`), and every search for the end of an operand ends in the same place of
both, never between the signs of a pair (`Collapses.endsAlike`). So does the search behind a sign
that has become one with the next (`Collapses.exists_operand_sign`).
-/

namespace Reckon.Formula

open Phrase (isSign_signProduct)

/-! ### Signs -/

section
variable {op : Binary} {c : Char} {s w : List Char}

theorem exists_symbol_of_isSign (hop : op.isSign = true) :
    ∃ c, op.symbol = [c] ∧ isSignChar c = true := by
  cases op with
  | plus | minus => exact ⟨_, rfl, rfl⟩
  | _ => cases hop

theorem exists_of_isSignChar (hc : isSignChar c = true) :
    ∃ op : Binary, op.isSign = true ∧ op.symbol = [c] := by
  rw [isSignChar, Bool.or_eq_true, decide_eq_true_eq, decide_eq_true_eq] at hc
  rcases hc with rfl | rfl
  · exact ⟨.plus, rfl, rfl⟩
  · exact ⟨.minus, rfl, rfl⟩

theorem reverse_symbol (hop : op.isSign = true) : op.symbol.reverse = op.symbol := by
  obtain ⟨c, hc, -⟩ := exists_symbol_of_isSign hop
  rw [hc, List.reverse_singleton]

theorem signProduct_comm (op o : Binary) : signProduct op o = signProduct o op := by
  simp only [signProduct, eq_comm]

/-- Signs are in no symbol but their own. -/
theorem isSignChar_of_mem_binary (hop : op.isSign = false) :
    ∀ c ∈ op.symbol, isSignChar c = false := by
  refine isSignChar_of_mem_symbol (.binary op) ⟨?_, ?_⟩ <;> rintro ⟨⟩ <;> cases hop

/-- What begins with another character does not begin with a sign. -/
theorem not_prefix_sign (hop : op.isSign = true) (hne : w ≠ [])
    (hw : ∀ c ∈ w, isSignChar c = false) (s : List Char) : ¬w <+: op.symbol ++ s := by
  rintro ⟨t, ht⟩
  obtain ⟨d, w, rfl⟩ := List.exists_cons_of_ne_nil hne
  obtain ⟨c, hc, hsign⟩ := exists_symbol_of_isSign hop
  rw [hc] at ht
  obtain rfl : d = c := (List.cons.inj ht).1
  rw [hw d (List.mem_cons_self ..)] at hsign
  cases hsign

/-- A sign is an operator whatever stands behind it. -/
theorem longestMatch_sign (hop : op.isSign = true) (s : List Char) :
    Operator.longestMatch (op.symbol ++ s) = some (.binary op) := by
  refine Operator.longestMatch_eq_some_iff.mpr ⟨List.prefix_append _ _, fun op' hprefix => ?_⟩
  by_contra hlong
  have hother : op' ≠ .binary .plus ∧ op' ≠ .binary .minus := by
    refine ⟨?_, ?_⟩ <;> rintro rfl <;> refine hlong ?_ <;> exact Operator.length_symbol_pos _
  exact not_prefix_sign hop op'.symbol_ne_nil (isSignChar_of_mem_symbol op' hother) s hprefix

end

/-! ### Texts with pairs of signs -/

/-- The second text is the first one with one sign in place of some of its pairs of signs. -/
inductive Collapses : List Char → List Char → Prop
  | nil : Collapses [] []
  | cons (c : Char) {s s' : List Char} : Collapses s s' → Collapses (c :: s) (c :: s')
  | signs {op o : Binary} {s s' : List Char} : op.isSign = true → o.isSign = true →
      Collapses s s' → Collapses (op.symbol ++ (o.symbol ++ s)) ((signProduct op o).symbol ++ s')

theorem collapses_collapseSigns (s : List Char) : Collapses s (collapseSigns s) := by
  fun_induction collapseSigns s with
  | case1 s ih => exact @Collapses.signs .plus .plus _ _ rfl rfl ih
  | case2 s ih => exact @Collapses.signs .minus .minus _ _ rfl rfl ih
  | case3 s ih => exact @Collapses.signs .plus .minus _ _ rfl rfl ih
  | case4 s ih => exact @Collapses.signs .minus .plus _ _ rfl rfl ih
  | case5 c s _ _ _ _ ih => exact .cons c ih
  | case6 => exact .nil

namespace Collapses
variable {op o : Binary} {c : Char} {s s' t u u' v v' w : List Char}

theorem refl (s : List Char) : Collapses s s := by
  induction s with
  | nil => exact nil
  | cons c s ih => exact cons c ih

theorem append (h : Collapses u u') (h' : Collapses v v') : Collapses (u ++ v) (u' ++ v') := by
  induction h with
  | nil => exact h'
  | cons c _ ih => exact cons c ih
  | signs hop ho _ ih =>
    simp only [List.append_assoc]
    exact signs hop ho ih

theorem reverse (h : Collapses s s') : Collapses s.reverse s'.reverse := by
  induction h with
  | nil => exact nil
  | cons c _ ih =>
    rw [List.reverse_cons, List.reverse_cons]
    exact ih.append (.refl [c])
  | @signs op o s s' hop ho _ ih =>
    have hpair : Collapses (o.symbol ++ (op.symbol ++ [])) ((signProduct o op).symbol ++ []) :=
      signs ho hop nil
    simp only [List.append_nil] at hpair
    rw [List.reverse_append, List.reverse_append, List.reverse_append, reverse_symbol hop,
      reverse_symbol ho, reverse_symbol (isSign_signProduct op o), List.append_assoc,
      signProduct_comm]
    exact ih.append hpair

theorem eq_nil_iff (h : Collapses s s') : s = [] ↔ s' = [] := by
  have hne : ∀ (op : Binary) (v : List Char), op.symbol ++ v ≠ [] := fun op v =>
    List.append_ne_nil_of_left_ne_nil (Operator.binary op).symbol_ne_nil v
  cases h with
  | nil => exact Iff.rfl
  | cons => exact iff_of_false (List.cons_ne_nil _ _) (List.cons_ne_nil _ _)
  | signs => exact iff_of_false (hne _ _) (hne _ _)

/-- The texts have the same first character, unless it is a sign. -/
theorem of_cons (hc : isSignChar c = false) (h : Collapses (c :: s) t) :
    ∃ s', t = c :: s' ∧ Collapses s s' := by
  generalize hu : c :: s = u at h
  cases h with
  | nil => cases hu
  | cons d h =>
    cases hu
    exact ⟨_, rfl, h⟩
  | @signs op o v v' hop ho h =>
    have hprefix : [c] <+: op.symbol ++ (o.symbol ++ v) := ⟨s, hu⟩
    exact absurd hprefix (not_prefix_sign hop (List.cons_ne_nil c []) (by simpa using hc) _)

/-- What has no sign in it stays in front. -/
theorem of_append (hw : ∀ c ∈ w, isSignChar c = false) (h : Collapses (w ++ s) t) :
    ∃ s', t = w ++ s' ∧ Collapses s s' := by
  induction w generalizing t with
  | nil => exact ⟨t, rfl, h⟩
  | cons c w ih =>
    obtain ⟨t, rfl, htail⟩ := h.of_cons (hw c (List.mem_cons_self ..))
    obtain ⟨s', rfl, hs⟩ := ih (fun d hd => hw d (List.mem_cons_of_mem c hd)) htail
    exact ⟨s', rfl, hs⟩

/-- There is no pair where a sign stands at the beginning only. -/
theorem eq_of_tail (h : Collapses s s') (hs : ∀ c ∈ s.tail, isSignChar c = false) : s' = s := by
  cases h with
  | nil => rfl
  | @cons c s s' h =>
    rw [← List.append_nil s] at h
    obtain ⟨t, rfl, hnil⟩ := h.of_append hs
    rw [hnil.eq_nil_iff.mp rfl, List.append_nil, List.tail_cons]
  | @signs op o s s' hop ho h =>
    obtain ⟨c, hc, -⟩ := exists_symbol_of_isSign hop
    obtain ⟨d, hd, hsign⟩ := exists_symbol_of_isSign ho
    rw [hs d (by simp [hc, hd])] at hsign
    cases hsign

/-! ### Operators -/

theorem prefix_iff (h : Collapses s s') (hw : ∀ c ∈ w, isSignChar c = false) :
    w <+: s ↔ w <+: s' := by
  induction h generalizing w with
  | nil => exact Iff.rfl
  | cons c _ ih =>
    cases w with
    | nil => simp
    | cons d w =>
      rw [List.cons_prefix_cons, List.cons_prefix_cons,
        ih fun e he => hw e (List.mem_cons_of_mem d he)]
  | @signs op o _ _ hop _ _ _ =>
    by_cases hne : w = []
    · simp [hne]
    · exact iff_of_false (not_prefix_sign hop hne hw _)
        (not_prefix_sign (isSign_signProduct op o) hne hw _)

/-- A sign begins both texts or neither. -/
theorem sign_prefix_iff (h : Collapses s s') :
    (∃ op : Binary, op.isSign = true ∧ op.symbol <+: s) ↔
      ∃ op : Binary, op.isSign = true ∧ op.symbol <+: s' := by
  cases h with
  | nil => exact Iff.rfl
  | cons c _ =>
    refine exists_congr fun op => and_congr_right fun hop => ?_
    obtain ⟨d, hd, -⟩ := exists_symbol_of_isSign hop
    simp [hd]
  | @signs op o _ _ hop _ _ =>
    exact iff_of_true ⟨op, hop, List.prefix_append _ _⟩
      ⟨signProduct op o, isSign_signProduct op o, List.prefix_append _ _⟩

/-- The texts begin with the same operator, unless it is a sign. -/
theorem longestMatch_eq (h : Collapses s s') (hc : isSignChar c = false) :
    Operator.longestMatch (c :: s) = Operator.longestMatch (c :: s') := by
  unfold Operator.longestMatch
  congr 1
  funext op
  rw [Bool.eq_iff_iff, List.isPrefixOf_iff_prefix, List.isPrefixOf_iff_prefix]
  by_cases hop : op ≠ .binary .plus ∧ op ≠ .binary .minus
  · exact (cons c h).prefix_iff (isSignChar_of_mem_symbol op hop)
  · have hnot : ∀ {b : Binary} (v : List Char), b.isSign = true → ¬b.symbol <+: c :: v := by
      rintro b v hb hprefix
      obtain ⟨d, hd, hsign⟩ := exists_symbol_of_isSign hb
      rw [hd, List.cons_prefix_cons] at hprefix
      rw [← hprefix.1, hsign] at hc
      cases hc
    rw [not_and_or, not_not, not_not] at hop
    rcases hop with rfl | rfl
    · exact iff_of_false (@hnot .plus s rfl) (@hnot .plus s' rfl)
    · exact iff_of_false (@hnot .minus s rfl) (@hnot .minus s' rfl)

/-- In texts read backwards a binary operator ends both or neither. -/
theorem isBinaryOperator_backTrack (h : Collapses s s') :
    isBinaryOperator (backTrack s) = isBinaryOperator (backTrack s') := by
  have key : ∀ v, isBinaryOperator (backTrack v) = true ↔
      (∃ op : Binary, op.isSign = true ∧ op.symbol <+: v) ∨
        ∃ op : Binary, op.isSign = false ∧ op.symbol.reverse <+: v := by
    intro v
    rw [isBinaryOperator_backTrack_iff]
    constructor
    · rintro ⟨op, hop⟩
      cases hsign : op.isSign with
      | false => exact .inr ⟨op, hsign, hop⟩
      | true => exact .inl ⟨op, hsign, reverse_symbol hsign ▸ hop⟩
    · rintro (⟨op, hsign, hop⟩ | ⟨op, -, hop⟩)
      · exact ⟨op, (reverse_symbol hsign).symm ▸ hop⟩
      · exact ⟨op, hop⟩
  rw [Bool.eq_iff_iff, key, key, h.sign_prefix_iff]
  refine or_congr_right (exists_congr fun op => and_congr_right fun hop => h.prefix_iff ?_)
  exact fun c hc => isSignChar_of_mem_binary hop c (List.mem_reverse.mp hc)

end Collapses

/-- How two texts begin that are alike but for pairs of signs. -/
inductive Begin : List Char → List Char → Prop
  | nil : Begin [] []
  | character {c : Char} {s s' : List Char} : isSignChar c = false →
      Operator.longestMatch (c :: s) = none → Operator.longestMatch (c :: s') = none →
      Collapses s s' → Begin (c :: s) (c :: s')
  | operator {op : Operator} {s s' : List Char} :
      Operator.longestMatch (op.symbol ++ s) = some op →
      Operator.longestMatch (op.symbol ++ s') = some op → Collapses s s' →
      Begin (op.symbol ++ s) (op.symbol ++ s')
  | signs {op o : Binary} {s s' : List Char} : op.isSign = true → o.isSign = true →
      Collapses s s' → Begin (op.symbol ++ (o.symbol ++ s)) ((signProduct op o).symbol ++ s')

theorem Collapses.begin {s s' : List Char} (h : Collapses s s') : Begin s s' := by
  cases h with
  | nil => exact .nil
  | signs hop ho h => exact .signs hop ho h
  | @cons c s s' h =>
    cases hc : isSignChar c with
    | true =>
      obtain ⟨op, hop, hsymbol⟩ := exists_of_isSignChar hc
      have hbegin : Begin (op.symbol ++ s) (op.symbol ++ s') :=
        @Begin.operator (.binary op) s s' (longestMatch_sign hop s) (longestMatch_sign hop s') h
      rwa [hsymbol] at hbegin
    | false =>
      have hsame := h.longestMatch_eq hc
      cases hm : Operator.longestMatch (c :: s) with
      | none => exact .character hc hm (hsame ▸ hm) h
      | some op =>
        have hm' := hsame ▸ hm
        obtain ⟨v, hv⟩ : ∃ v, c :: s = op.symbol ++ v := ⟨_, Operator.eq_append_of_longestMatch hm⟩
        have hop : ∀ d ∈ op.symbol, isSignChar d = false := by
          refine isSignChar_of_mem_symbol op ⟨?_, ?_⟩ <;> rintro rfl <;> cases hv <;> cases hc
        obtain ⟨v', hv', hrest⟩ := (hv ▸ Collapses.cons c h).of_append hop
        rw [hv] at hm ⊢
        rw [hv'] at hm' ⊢
        exact .operator hm hm' hrest

/-! ### Brackets -/

/-- Where the depth is positive, a closing bracket may end the search, and everything else leaves
the depth positive. -/
theorem closingFrom_cons_cases {depth : Int} (hd : 0 < depth) (c : Char) :
    (c = ')' ∧ ∀ place s, closingFrom depth place (c :: s) = some place) ∨
      ∃ depth' > 0, ∀ place s,
        closingFrom depth place (c :: s) = closingFrom depth' (place + 1) s := by
  have hcons : ∀ {depth' : Int}, depth' =
      (if c = '(' then depth + 1 else if c = ')' then depth - 1 else depth) → 0 < depth' →
        ∀ place s, closingFrom depth place (c :: s) = closingFrom depth' (place + 1) s := by
    rintro depth' rfl hpos place s
    exact if_neg hpos.ne'
  by_cases hopen : c = '('
  · exact .inr ⟨depth + 1, by omega, hcons (by rw [if_pos hopen]) (by omega)⟩
  by_cases hclose : c = ')'
  · rcases eq_or_ne depth 1 with rfl | hne
    · subst hclose
      exact .inl ⟨rfl, fun place s => rfl⟩
    · exact .inr ⟨depth - 1, by omega, hcons (by rw [if_neg hopen, if_pos hclose]) (by omega)⟩
  · exact .inr ⟨depth, hd, hcons (by rw [if_neg hopen, if_neg hclose]) hd⟩

/-- The search for a closing bracket runs over a sign. -/
theorem closingFrom_sign {op : Binary} (hop : op.isSign = true) {depth : Int} (hd : 0 < depth)
    (place : Nat) (s : List Char) :
    closingFrom depth place (op.symbol ++ s) = closingFrom depth (place + 1) s := by
  cases op with
  | plus | minus => exact if_neg hd.ne'
  | _ => cases hop

namespace Collapses
variable {s s' : List Char}

/-- A closing bracket is found in both texts, in the same place, or in neither. -/
theorem closingFrom_cases (h : Collapses s s') {depth : Int} (hd : 0 < depth) :
    (∀ place, closingFrom depth place s = none ∧ closingFrom depth place s' = none) ∨
      ∃ u v u' v', s = u ++ ')' :: v ∧ s' = u' ++ ')' :: v' ∧ Collapses u u' ∧ Collapses v v' ∧
        ∀ place, closingFrom depth place s = some (place + u.length) ∧
          closingFrom depth place s' = some (place + u'.length) := by
  induction h generalizing depth with
  | nil => exact .inl fun place => ⟨rfl, rfl⟩
  | @cons c s s' h ih =>
    rcases closingFrom_cons_cases hd c with ⟨rfl, hend⟩ | ⟨depth', hd', hgo⟩
    · exact .inr ⟨[], s, [], s', rfl, rfl, .nil, h, fun place => ⟨hend place s, hend place s'⟩⟩
    rcases ih hd' with hnone | ⟨u, v, u', v', rfl, rfl, hu, hv, hplace⟩
    · refine .inl fun place => ?_
      rw [hgo, hgo]
      exact hnone (place + 1)
    · refine .inr ⟨c :: u, v, c :: u', v', rfl, rfl, .cons c hu, hv, fun place => ?_⟩
      rw [hgo, hgo, (hplace _).1, (hplace _).2, List.length_cons, List.length_cons]
      exact ⟨congrArg some (by omega), congrArg some (by omega)⟩
  | @signs op o s s' hop ho h ih =>
    have hsigns : ∀ place, closingFrom depth place (op.symbol ++ (o.symbol ++ s)) =
        closingFrom depth (place + 2) s := fun place => by
      rw [closingFrom_sign hop hd, closingFrom_sign ho hd]
    have hsign : ∀ place, closingFrom depth place ((signProduct op o).symbol ++ s') =
        closingFrom depth (place + 1) s' := fun place =>
      closingFrom_sign (isSign_signProduct op o) hd place s'
    rcases ih hd with hnone | ⟨u, v, u', v', rfl, rfl, hu, hv, hplace⟩
    · refine .inl fun place => ?_
      rw [hsigns, hsign]
      exact ⟨(hnone _).1, (hnone _).2⟩
    · refine .inr ⟨op.symbol ++ (o.symbol ++ u), v, (signProduct op o).symbol ++ u', v', by simp,
        by simp, .signs hop ho hu, hv, fun place => ?_⟩
      have hone : ∀ {b : Binary}, b.isSign = true → b.symbol.length = 1 := by
        intro b hb
        obtain ⟨c, hc, -⟩ := exists_symbol_of_isSign hb
        rw [hc, List.length_singleton]
      rw [hsigns, hsign, (hplace _).1, (hplace _).2, List.length_append, List.length_append,
        List.length_append, hone hop, hone ho, hone (isSign_signProduct op o)]
      exact ⟨congrArg some (by omega), congrArg some (by omega)⟩

/-- The partner of a bracket in front of both texts: what lies up to it and what lies behind it. -/
theorem exists_closing (h : Collapses s s') :
    ∃ u v u' v', s = u ++ v ∧ s' = u' ++ v' ∧ Collapses u u' ∧ Collapses v v' ∧
      Collapses u.dropLast u'.dropLast ∧ (closing? ('(' :: s)).getD 0 = u.length ∧
      (closing? ('(' :: s')).getD 0 = u'.length := by
  have hopen : ∀ v, closing? ('(' :: v) = closingFrom 1 1 v := fun v => rfl
  rw [hopen, hopen]
  rcases h.closingFrom_cases one_pos with hnone | ⟨u, v, u', v', rfl, rfl, hu, hv, hplace⟩
  · rw [(hnone 1).1, (hnone 1).2]
    exact ⟨[], s, [], s', rfl, rfl, .nil, h, .nil, rfl, rfl⟩
  · refine ⟨u ++ [')'], v, u' ++ [')'], v', by simp, by simp, hu.append (.refl _), hv, ?_, ?_, ?_⟩
    · rwa [List.dropLast_concat, List.dropLast_concat]
    · rw [(hplace 1).1, Option.getD_some, List.length_append, List.length_singleton, Nat.add_comm]
    · rw [(hplace 1).2, Option.getD_some, List.length_append, List.length_singleton, Nat.add_comm]

/-- A pair of brackets encloses both texts or neither. -/
theorem rel_enclosed? (h : Collapses s s') :
    Option.Rel Collapses (enclosed? s) (enclosed? s') := by
  by_cases hhead : ∃ inner, s = '(' :: inner
  · obtain ⟨inner, rfl⟩ := hhead
    obtain ⟨inner', rfl, hbehind⟩ := h.of_cons (by decide)
    obtain ⟨u, v, u', v', rfl, rfl, -, hv, hinner, hk, hk'⟩ := hbehind.exists_closing
    simp only [enclosed?, hk, hk', List.length_append, Nat.left_eq_add,
      List.length_eq_zero_iff]
    by_cases hnil : v = []
    · obtain rfl := hv.eq_nil_iff.mp hnil
      subst hnil
      simpa using Option.Rel.some hinner
    · rw [if_neg hnil, if_neg (mt hv.eq_nil_iff.mpr hnil)]
      exact .none
  · have hopen : ∀ {v : List Char}, ['('] <+: v ↔ ∃ inner, v = '(' :: inner := by
      intro v
      exact exists_congr fun inner => eq_comm
    have hhead' : ¬∃ inner, s' = '(' :: inner := by
      rwa [← hopen, ← h.prefix_iff (by decide), hopen]
    have hnone : ∀ {v : List Char}, (¬∃ inner, v = '(' :: inner) → enclosed? v = none := by
      intro v hv
      refine Phrase.enclosed?_of_head? ?_
      rintro c hc rfl
      exact hv (List.head?_eq_some_iff.mp hc)
    rw [hnone hhead, hnone hhead']
    exact .none

end Collapses

/-! ### Operands -/

/-- Whether a search that has taken so much may stop at an operator. -/
def MayStop (taken : List Char) : Prop :=
  taken ≠ [] ∧ isBinaryOperator (backTrack taken) = false

section
variable {op o : Binary} {p p' : Option Operator} {taken taken' : List Char}

theorem stopsAt_iff {next : Operator} :
    StopsAt p taken next ↔ MayStop taken ∧ endsOperandOf p next = true :=
  and_assoc.symm

theorem Collapses.mayStop_iff (h : Collapses taken taken') : MayStop taken ↔ MayStop taken' := by
  rw [MayStop, MayStop, h.isBinaryOperator_backTrack]
  exact and_congr_left' h.eq_nil_iff.not

/-- Behind a binary operator no search stops. -/
theorem not_mayStop_binary (op : Binary) (taken : List Char) :
    ¬MayStop (op.symbol.reverse ++ taken) := by
  rintro ⟨-, hback⟩
  rw [isBinaryOperator_backTrack_iff.mpr ⟨op, List.prefix_append _ _⟩] at hback
  cases hback

/-- It does not matter whether a sign was taken first. -/
theorem mayStop_append_sign (ho : o.isSign = true) (taken : List Char) :
    MayStop (taken ++ o.symbol) ↔ MayStop taken := by
  obtain ⟨c, hc, hsign⟩ := exists_symbol_of_isSign ho
  by_cases hne : taken = []
  · subst hne
    refine iff_of_false ?_ fun h => h.1 rfl
    have hnot := not_mayStop_binary o []
    rwa [reverse_symbol ho, List.append_nil] at hnot
  · have hback : isBinaryOperator (backTrack (taken ++ o.symbol)) =
        isBinaryOperator (backTrack taken) := by
      rw [Bool.eq_iff_iff, isBinaryOperator_backTrack_iff, isBinaryOperator_backTrack_iff]
      refine exists_congr fun b => ⟨fun hb => ?_, fun hb => hb.trans (List.prefix_append _ _)⟩
      refine prefix_of_prefix_append hne hb fun d hd hmem => ?_
      obtain rfl : c = d := by simpa [hc] using hd
      cases hb : b.isSign with
      | true =>
        obtain ⟨e, he, -⟩ := exists_symbol_of_isSign hb
        simp [he] at hmem
      | false =>
        have := isSignChar_of_mem_binary hb c (List.mem_reverse.mp (List.mem_of_mem_tail hmem))
        rw [hsign] at this
        cases this
    rw [MayStop, MayStop, hback]
    exact and_congr_left' (iff_of_true (by simp [hne]) hne)

/-- Signs end the same operands. -/
theorem endsOperandOf_sign (hop : op.isSign = true) (ho : o.isSign = true) (p : Option Operator) :
    endsOperandOf p (.binary op) = endsOperandOf p (.binary o) := by
  have hrank : (Operator.binary op).rank = (Operator.binary o).rank :=
    (Phrase.rank_of_isSign hop).trans (Phrase.rank_of_isSign ho).symm
  cases p with
  | none => rfl
  | some p => rw [endsOperandOf, endsOperandOf, Option.all_some, Option.all_some, hrank]

/-- The operands of signs end at the same operators. -/
theorem endsOperandOf_of_sign (hop : op.isSign = true) (ho : o.isSign = true) (next : Operator) :
    endsOperandOf (some (.binary op)) next = endsOperandOf (some (.binary o)) next := by
  have hrank : (Operator.binary op).rank = (Operator.binary o).rank :=
    (Phrase.rank_of_isSign hop).trans (Phrase.rank_of_isSign ho).symm
  rw [endsOperandOf, endsOperandOf, Option.all_some, Option.all_some, hrank]

end

/-- Two searches end in the same place of texts that are alike but for pairs of signs. -/
def EndsAlike (p p' : Option Operator) (taken s taken' s' : List Char) : Prop :=
  ∃ u v u' v', argumentFrom p taken s = (taken.reverse ++ u, v) ∧
    argumentFrom p' taken' s' = (taken'.reverse ++ u', v') ∧ Collapses u u' ∧ Collapses v v'

section
variable {p p' : Option Operator} {taken taken' u u' v v' s s' : List Char}

/-- More is taken of both texts. -/
theorem EndsAlike.of_append (hu : Collapses u u')
    (hstep : argumentFrom p taken (u ++ v) = argumentFrom p (u.reverse ++ taken) v)
    (hstep' : argumentFrom p' taken' (u' ++ v') = argumentFrom p' (u'.reverse ++ taken') v')
    (h : EndsAlike p p' (u.reverse ++ taken) v (u'.reverse ++ taken') v') :
    EndsAlike p p' taken (u ++ v) taken' (u' ++ v') := by
  obtain ⟨q, r, q', r', hq, hq', hcollapses, hrest⟩ := h
  refine ⟨u ++ q, r, u' ++ q', r', ?_, ?_, hu.append hcollapses, hrest⟩
  · rw [hstep, hq]
    simp
  · rw [hstep', hq']
    simp

/-- Nothing more is taken of both texts. -/
theorem EndsAlike.stop {next next' : Operator} (h : Collapses s s')
    (hm : Operator.longestMatch s = some next) (hm' : Operator.longestMatch s' = some next')
    (hstop : StopsAt p taken next) (hstop' : StopsAt p' taken' next') :
    EndsAlike p p' taken s taken' s' := by
  refine ⟨[], s, [], s', ?_, ?_, .nil, h⟩
  · rw [argumentFrom_stop hm hstop.1 hstop.2.1 hstop.2.2, List.append_nil]
  · rw [argumentFrom_stop hm' hstop'.1 hstop'.2.1 hstop'.2.2, List.append_nil]

variable (hp : ∀ next, endsOperandOf p next = endsOperandOf p' next) {start : List Char}
  (hstart : ∀ taken, MayStop (taken ++ start) ↔ MayStop taken)
include hp hstart

/-- Searches that end at the same operators end in the same place, whatever the first one has taken
before, if that does not matter. -/
theorem Collapses.endsAlike (htaken : Collapses taken taken') (h : Collapses s s') :
    EndsAlike p p' (taken ++ start) s taken' s' := by
  obtain ⟨n, hn⟩ : ∃ n, n = s.length := ⟨_, rfl⟩
  induction n using Nat.strong_induction_on generalizing taken taken' s s' with
  | _ n ih =>
    subst hn
    have hstops : ∀ {next next'}, endsOperandOf p next = endsOperandOf p next' →
        (StopsAt p (taken ++ start) next ↔ StopsAt p' taken' next') := by
      intro next next' hnext
      rw [stopsAt_iff, stopsAt_iff, hstart, htaken.mayStop_iff, hnext, hp]
    -- more is taken, and the rest is shorter
    have hmore : ∀ {u v u' v' : List Char}, s = u ++ v → s' = u' ++ v' → u ≠ [] → Collapses u u' →
        Collapses v v' →
        argumentFrom p (taken ++ start) (u ++ v) =
          argumentFrom p (u.reverse ++ (taken ++ start)) v →
        argumentFrom p' taken' (u' ++ v') = argumentFrom p' (u'.reverse ++ taken') v' →
        EndsAlike p p' (taken ++ start) s taken' s' := by
      rintro u v u' v' rfl rfl hne hu hv hstep hstep'
      have hlt : v.length < (u ++ v).length := by
        rw [List.length_append]
        exact Nat.lt_add_of_pos_left (List.length_pos_of_ne_nil hne)
      refine .of_append hu hstep hstep' ?_
      rw [← List.append_assoc]
      exact ih v.length hlt (hu.reverse.append htaken) hv rfl
    cases h.begin with
    | nil => exact ⟨[], [], [], [], by simp, by simp, .nil, .nil⟩
    | @character c s s' hc hm hm' hrest =>
      by_cases hopen : c = '('
      · subst hopen
        obtain ⟨u, v, u', v', rfl, rfl, hu, hv, -, hk, hk'⟩ := hrest.exists_closing
        exact @hmore ('(' :: u) v ('(' :: u') v' rfl rfl (List.cons_ne_nil _ _) (.cons '(' hu)
          hv (argumentFrom_bracket hk) (argumentFrom_bracket hk')
      · exact @hmore [c] s [c] s' rfl rfl (List.cons_ne_nil _ _) (.refl _) hrest
          (argumentFrom_cons hopen hm) (argumentFrom_cons hopen hm')
    | @operator op s s' hm hm' hrest =>
      by_cases hstop : StopsAt p (taken ++ start) op
      · exact .stop h hm hm' hstop ((hstops rfl).mp hstop)
      · exact hmore rfl rfl op.symbol_ne_nil (.refl _) hrest
          (argumentFrom_of_not_stopsAt hm hstop)
          (argumentFrom_of_not_stopsAt hm' (mt (hstops rfl).mpr hstop))
    | @signs op o s s' hop ho hrest =>
      have hproduct := isSign_signProduct op o
      have hm := longestMatch_sign hop (o.symbol ++ s)
      have hm' := longestMatch_sign hproduct s'
      have hsame := hstops (endsOperandOf_sign hop hproduct p)
      by_cases hstop : StopsAt p (taken ++ start) (.binary op)
      · exact .stop h hm hm' hstop (hsame.mp hstop)
      · -- the second sign stands behind a binary operator
        have hsecond : ¬StopsAt p (op.symbol.reverse ++ (taken ++ start)) (.binary o) := fun h =>
          not_mayStop_binary op _ (stopsAt_iff.mp h).1
        have hpair := @Collapses.signs op o [] [] hop ho .nil
        simp only [List.append_nil] at hpair
        refine hmore (List.append_assoc _ _ _).symm rfl
          (List.append_ne_nil_of_left_ne_nil (Operator.binary op).symbol_ne_nil _) hpair hrest ?_
          (argumentFrom_of_not_stopsAt hm' (mt hsame.mpr hstop))
        have hsteps := (argumentFrom_of_not_stopsAt hm hstop).trans
          (argumentFrom_of_not_stopsAt (longestMatch_sign ho s) hsecond)
        simpa using hsteps

end

section
variable {op o : Binary} {p p' : Option Operator} {s s' : List Char}

/-- Operands of the same extent, and what is behind them. -/
theorem Collapses.operand (hp : ∀ next, endsOperandOf p next = endsOperandOf p' next)
    (h : Collapses s s') :
    Collapses (argument p s).1 (argument p' s').1 ∧
      Collapses (argument p s).2 (argument p' s').2 := by
  have hstart : ∀ taken, MayStop (taken ++ []) ↔ MayStop taken := fun taken => by
    rw [List.append_nil]
  obtain ⟨u, v, u', v', hu, hu', hcollapses, hrest⟩ := endsAlike hp hstart .nil h
  have heq : argument p s = (u, v) := hu
  have heq' : argument p' s' = (u', v') := hu'
  rw [heq, heq']
  exact ⟨hcollapses, hrest⟩

/-- The operand of a sign that begins with a sign goes as far as the operand of the sign that the
two become. -/
theorem Collapses.exists_operand_sign (hop : op.isSign = true) (ho : o.isSign = true)
    (h : Collapses s s') :
    ∃ w, (argument (some (.binary op)) (o.symbol ++ s)).1 = o.symbol ++ w ∧
      argument (some (.binary o)) w = (w, []) ∧
      Collapses w (argument (some (.binary (signProduct op o))) s').1 ∧
      Collapses (argument (some (.binary op)) (o.symbol ++ s)).2
        (argument (some (.binary (signProduct op o))) s').2 := by
  have hends := endsOperandOf_of_sign hop (isSign_signProduct op o)
  have hstart := mayStop_append_sign ho
  obtain ⟨w, v, w', v', hw, hw', hcollapses, hrest⟩ := endsAlike hends hstart .nil h
  rw [List.nil_append] at hw
  have hreverse : o.symbol.reverse = o.symbol := reverse_symbol ho
  have heq : argument (some (.binary op)) (o.symbol ++ s) = (o.symbol ++ w, v) := by
    have hfirst := @argumentFrom_of_not_stopsAt (some (.binary op)) (.binary o) [] s
      (longestMatch_sign ho s) fun h => h.1 rfl
    simp only [Operator.symbol_binary, hreverse, List.append_nil] at hfirst
    rw [argument, hfirst, hw, hreverse]
  have heq' : argument (some (.binary (signProduct op o))) s' = (w', v') := hw'
  rw [heq, heq']
  refine ⟨w, rfl, ?_, hcollapses, hrest⟩
  -- alone the operand is taken whole, and so it is without its sign
  obtain ⟨r, r', t, t', hr, ht, -, hrest⟩ :=
    endsAlike (endsOperandOf_of_sign hop ho) hstart .nil (.refl w)
  have halone := argumentFrom_alone hw
  rw [List.nil_append] at hr
  obtain rfl : r' = [] := (Prod.ext_iff.mp (hr.symm.trans halone)).2
  obtain rfl := hrest.eq_nil_iff.mp rfl
  have happend := argument_append (some (.binary o)) w
  have hargument : argument (some (.binary o)) w = (t, []) := ht
  rw [hargument, List.append_nil] at happend
  exact hargument.trans (Prod.ext happend rfl)

end

end Reckon.Formula
