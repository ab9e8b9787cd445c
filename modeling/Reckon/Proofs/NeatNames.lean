import Reckon.Proofs.Printing
import Reckon.Proofs.Reading
import Reckon.Proofs.Spelling

/-!
# The names in prepared formulas

A formula that has been prepared has no capitals, and where a letter follows a digit in it, `log`
begins or both belong to the symbol of a function (`letter_of_digit`). So the names that are read
from it are small letters and then digits (`isNeat_of_read`).
-/

namespace Reckon

namespace Text

/-! ### Small letters -/

/-- Neither a capital of ASCII nor a line end. -/
def IsSmall (c : Char) : Prop :=
  ¬ (65 ≤ c.toNat ∧ c.toNat ≤ 90) ∧ c ≠ '\n'

theorem isSmall_of_le {c : Char} (h : 97 ≤ c.toNat) : IsSmall c := by
  refine ⟨by omega, ?_⟩
  rintro rfl
  revert h
  decide

theorem toNat_ofNat {n : Nat} (h : n.isValidChar) : (Char.ofNat n).toNat = n := by
  rw [Char.ofNat, dif_pos h]
  rfl

/-- Small letters come behind the capitals of ASCII. -/
theorem smallLetter_cases (c : Char) :
    97 ≤ (smallLetter c).toNat ∨
      smallLetter c = c ∧ ¬ (65 ≤ c.toNat ∧ c.toNat ≤ 90) := by
  have hruns : ∀ run ∈ smallLetterRuns, 97 ≤ run.1 + run.2.2.2 ∧
      (run.2.1 + run.2.2.2 < 0xD800 ∨
        0xDFFF < run.1 + run.2.2.2 ∧ run.2.1 + run.2.2.2 < 0x110000) := by
    decide +kernel
  unfold smallLetter
  split
  · split
    · rename_i hcapital
      have hle : 65 ≤ c.toNat := hcapital.1
      left
      rw [toNat_ofNat (.inl (by omega))]
      omega
    · rename_i hcapital
      exact .inr ⟨rfl, hcapital⟩
  · rename_i hlarge
    split
    · rename_i first last step shift hrun
      have hmem := List.mem_of_find?_eq_some hrun
      have hplace := List.find?_some hrun
      simp only [Bool.and_eq_true, decide_eq_true_eq] at hplace
      obtain ⟨hlow, hhigh⟩ := hruns _ hmem
      simp only at hlow hhigh
      left
      rw [toNat_ofNat]
      · omega
      · rw [Nat.isValidChar]
        omega
    · exact .inr ⟨rfl, by omega⟩

theorem mem_of_mem_lowercaseFrom {before s : List Char} {c : Char}
    (hc : c ∈ lowercaseFrom before s) :
    97 ≤ c.toNat ∨ c ∈ s ∧ ¬ (65 ≤ c.toNat ∧ c.toNat ≤ 90) := by
  induction s generalizing before with
  | nil => cases hc
  | cons d s ih =>
    rw [lowercaseFrom, List.mem_append] at hc
    rcases hc with hc | hc
    · split at hc
      · rcases List.mem_cons.mp hc with rfl | hc
        · exact .inl (by decide)
        · obtain rfl := List.mem_singleton.mp hc
          exact .inl (by decide)
      split at hc
      · split at hc
        all_goals
          obtain rfl := List.mem_singleton.mp hc
          exact .inl (by decide)
      · obtain rfl := List.mem_singleton.mp hc
        rcases smallLetter_cases d with hsmall | ⟨hself, hcapital⟩
        · exact .inl hsmall
        · rw [hself]
          exact .inr ⟨List.mem_cons_self .., hcapital⟩
    · exact (ih hc).imp_right fun h => ⟨List.mem_cons_of_mem d h.1, h.2⟩

theorem isSmall_of_mem_lowercaseFrom {before s : List Char} (h : '\n' ∉ s) {c : Char}
    (hc : c ∈ lowercaseFrom before s) : IsSmall c := by
  rcases mem_of_mem_lowercaseFrom hc with hsmall | ⟨hmem, hcapital⟩
  · exact isSmall_of_le hsmall
  · refine ⟨hcapital, ?_⟩
    rintro rfl
    exact h hmem

end Text

namespace Formula

open Reckon.Text

theorem isSmall_of_mem_normalize {s : List Char} {c : Char} (hc : c ∈ normalize s) : IsSmall c := by
  refine isSmall_of_mem_lowercaseFrom (fun hline => ?_) hc
  have := isBlank_of_mem_squeeze hline
  revert this
  decide

theorem isSmall_of_mem_expandScientificFrom {s : List Char} (h : ∀ c ∈ s, IsSmall c)
    {afterDigit : Bool} {c : Char} (hc : c ∈ expandScientificFrom afterDigit s) : IsSmall c := by
  induction s generalizing afterDigit with
  | nil => cases hc
  | cons d s ih =>
    have ih := @ih (fun c hc => h c (List.mem_cons_of_mem d hc)) (isDigit d)
    rw [expandScientificFrom] at hc
    split at hc
    · simp only [List.mem_cons] at hc
      rcases hc with rfl | rfl | rfl | rfl | hc
      all_goals first | exact ih hc | exact ⟨by decide, by decide⟩
    · rcases List.mem_cons.mp hc with rfl | hc
      · exact h c (List.mem_cons_self ..)
      · exact ih hc

/-! ### Putting `*` between neighbours -/

/-- At the beginning of a text a symbol or a single character is written, perhaps with `*` in front
of it. -/
theorem exists_insertProductsFrom (before : List Char) (c : Char) (s : List Char) :
    ∃ star u v, c :: s = u ++ v ∧ u ≠ [] ∧
      (Operator.longestMatch (c :: s) = none ∧ u = [c] ∨
        ∃ op, Operator.longestMatch (c :: s) = some op ∧ u = op.symbol) ∧
      (star = ['*'] ∨
        star = [] ∧ meansProduct before c (Operator.longestMatch (c :: s)) = false) ∧
      insertProductsFrom before (c :: s) =
        star ++ (u ++ insertProductsFrom (u.reverse ++ before) v) := by
  have hstar : ∀ means : Bool, (if means then ['*'] else []) = ['*'] ∨
      (if means then ['*'] else []) = [] ∧ means = false := by
    decide
  rw [insertProductsFrom]
  split
  · rename_i op hm
    refine ⟨_, _, _, Operator.eq_append_of_longestMatch hm, op.symbol_ne_nil,
      .inr ⟨op, hm, rfl⟩, hstar _, ?_⟩
    rw [List.append_assoc]
  · rename_i hm
    exact ⟨_, [c], s, rfl, List.cons_ne_nil _ _, .inl ⟨hm, rfl⟩, hstar _, rfl⟩

/-- What stands behind a beginning of the text is shorter. -/
theorem length_lt_of_eq_append {c : Char} {s u v : List Char} (h : c :: s = u ++ v) (hu : u ≠ []) :
    v.length < (c :: s).length := by
  have := List.length_pos_of_ne_nil hu
  rw [h, List.length_append]
  omega

theorem isSmall_of_mem_insertProductsFrom {before s : List Char} (h : ∀ c ∈ s, IsSmall c)
    {c : Char} (hc : c ∈ insertProductsFrom before s) : IsSmall c := by
  cases s with
  | nil =>
    rw [insertProductsFrom] at hc
    cases hc
  | cons d s =>
    obtain ⟨star, u, v, hs, hne, hu, hstar, heq⟩ := exists_insertProductsFrom before d s
    have hlt := length_lt_of_eq_append hs hne
    rw [hs] at h
    rw [heq, List.mem_append, List.mem_append] at hc
    rcases hc with hc | hc | hc
    · rcases hstar with rfl | ⟨rfl, -⟩
      · obtain rfl := List.mem_singleton.mp hc
        exact ⟨by decide, by decide⟩
      · cases hc
    · exact h c (List.mem_append_left v hc)
    · exact isSmall_of_mem_insertProductsFrom (fun c hc => h c (List.mem_append_right u hc)) hc
termination_by s.length

theorem isSmall_of_prepare {s p : List Char} (h : prepare s = .ok p) {c : Char} (hc : c ∈ p) :
    IsSmall c := by
  obtain ⟨-, -, rfl⟩ := prepare_eq_ok_iff.mp h
  refine isSmall_of_mem_insertProductsFrom (fun c hc => ?_) hc
  exact isSmall_of_mem_expandScientificFrom (fun c hc => isSmall_of_mem_normalize hc) hc

/-! ### Letters behind digits -/

theorem append_eq_append_pair {x y a b : List Char} {d c : Char} (h : x ++ y = a ++ d :: c :: b) :
    (∃ z, x = a ++ d :: c :: z ∧ b = z ++ y) ∨ (x = a ++ [d] ∧ y = c :: b) ∨
      ∃ z, a = x ++ z ∧ y = z ++ d :: c :: b := by
  rcases List.append_eq_append_iff.mp h with ⟨z, ha, hy⟩ | ⟨z, hx, hz⟩
  · exact .inr (.inr ⟨z, ha, hy⟩)
  cases z with
  | nil => exact .inr (.inr ⟨[], by simpa using hx.symm, hz.symm⟩)
  | cons d' z =>
    obtain ⟨rfl, hz'⟩ := List.cons.inj hz
    cases z with
    | nil => exact .inr (.inl ⟨hx, hz'.symm⟩)
    | cons c' z =>
      obtain ⟨rfl, hb⟩ := List.cons.inj hz'
      exact .inl ⟨z, hx, hb⟩

/-- Behind a digit only `log` may follow. -/
theorem log_prefix_of_digit {before s b : List Char} {d c : Char} (hd : isAsciiDigit d = true)
    (hc : isAsciiLetter c = true) (h : insertProductsFrom (d :: before) s = c :: b) :
    Binary.log.symbol <+: c :: b := by
  cases s with
  | nil =>
    rw [insertProductsFrom] at h
    cases h
  | cons c' s =>
    obtain ⟨star, u, v, hs, hne, hu, rfl | ⟨rfl, hmeans⟩, heq⟩ :=
      exists_insertProductsFrom (d :: before) c' s
    all_goals rw [h] at heq
    · obtain ⟨rfl, -⟩ := List.cons_eq_cons.mp heq
      cases hc
    · obtain ⟨c'', u, rfl⟩ := List.exists_cons_of_ne_nil hne
      obtain ⟨rfl, -⟩ := List.cons_eq_cons.mp hs
      obtain ⟨rfl, -⟩ := List.cons_eq_cons.mp heq
      have hbinary : isBinaryOperator (Operator.longestMatch (c :: s)) = true := by
        by_contra hno
        simp [meansProduct, hd, hc, hno] at hmeans
      rw [isBinaryOperator, Option.any_eq_true] at hbinary
      obtain ⟨op, hm, hop⟩ := hbinary
      rcases hu with ⟨hnone, -⟩ | ⟨op', hm', hu⟩
      · rw [hnone] at hm
        cases hm
      obtain rfl := Option.some.inj (hm.symm.trans hm')
      cases op with
      | unary op => cases hop
      | binary op =>
        have hlog : op = .log := by
          rw [← isWord_binary_iff]
          exact Operator.isWord_of_mem (by rw [← hu]; exact List.mem_cons_self ..)
            (isWordChar_of_isAsciiLetter hc)
        rw [List.nil_append, hu, hlog] at heq
        rw [heq]
        exact List.prefix_append _ _

/-- The two neighbours `d` and `c` belong to the symbol of a function, and no name ends in front of
it. -/
def InFunction (before a : List Char) (d c : Char) (b : List Char) : Prop :=
  ∃ (op : Unary) (u v a' b' : List Char), op.symbol = u ++ d :: c :: v ∧ a = a' ++ u ∧ b = v ++ b' ∧
    ∀ e ∈ (a'.reverse ++ before).head?, isWordChar e = false

theorem isAsciiLetter_head? (op : Operator) {d : Char} (hd : isAsciiDigit d = true)
    (hmem : d ∈ op.symbol) : ∀ c ∈ op.symbol.head?, isAsciiLetter c = true := by
  refine Operator.forall_of_byLength (p := fun op => ∀ d ∈ op.symbol, isAsciiDigit d = true →
    ∀ c ∈ op.symbol.head?, isAsciiLetter c = true) ?_ op d hmem hd
  decide

theorem inFunction_of_symbol {before s a z star rest : List Char} {d c c' : Char} {op : Operator}
    (hd : isAsciiDigit d = true) (hm : Operator.longestMatch (c' :: s) = some op)
    (hop : a ++ d :: c :: z = op.symbol)
    (hstar : star = ['*'] ∨
      star = [] ∧ meansProduct before c' (Operator.longestMatch (c' :: s)) = false) :
    InFunction before (star ++ a) d c (z ++ rest) := by
  have hmem : d ∈ op.symbol := by simp [← hop]
  have hletter := isAsciiLetter_head? op hd hmem
  cases op with
  | binary op =>
    have hmark : ∀ e ∈ op.symbol, isAsciiDigit e = false := by
      cases op <;> decide
    rw [hmark d hmem] at hd
    cases hd
  | unary op =>
    refine ⟨op, a, z, star, rest, hop.symm, rfl, rfl, ?_⟩
    rcases hstar with rfl | ⟨rfl, hmeans⟩
    · rintro e he
      obtain rfl := Option.some.inj he
      decide
    · intro e he
      cases before with
      | nil => cases he
      | cons e' before =>
        obtain rfl := Option.some.inj he
        have hfirst : isAsciiLetter c' = true := by
          obtain ⟨c'', t, hsymbol⟩ := List.exists_cons_of_ne_nil (Operator.unary op).symbol_ne_nil
          have hlead := Operator.symbol_prefix_of_longestMatch hm
          rw [hsymbol, List.cons_prefix_cons] at hlead
          refine hletter c' ?_
          rw [hsymbol, hlead.1]
          rfl
        rw [hm] at hmeans
        simp only [meansProduct, isBinaryOperator, Operator.isBinary, hfirst, Option.isSome_some,
          Option.any_some, Bool.not_false, Bool.and_true, Bool.or_eq_false_iff] at hmeans
        rw [isWordChar, hmeans.1.1.1.1.1, hmeans.1.1.1.1.2]
        rfl

/-- Where a letter follows a digit, `log` begins or a function contains them both. -/
theorem letter_of_digit {before s a b : List Char} {d c : Char} (hd : isAsciiDigit d = true)
    (hc : isAsciiLetter c = true) (h : insertProductsFrom before s = a ++ d :: c :: b) :
    Binary.log.symbol <+: c :: b ∨ InFunction before a d c b := by
  cases s with
  | nil =>
    rw [insertProductsFrom] at h
    cases a <;> cases h
  | cons c' s =>
    obtain ⟨star, u, v, hs, hne, hu, hstar, heq⟩ := exists_insertProductsFrom before c' s
    have hlt := length_lt_of_eq_append hs hne
    rw [h] at heq
    obtain ⟨a₂, rfl, hrest⟩ : ∃ a₂, a = star ++ a₂ ∧
        u ++ insertProductsFrom (u.reverse ++ before) v = a₂ ++ d :: c :: b := by
      rcases hstar with rfl | ⟨rfl, -⟩
      · cases a with
        | nil =>
          obtain ⟨rfl, -⟩ := List.cons.inj heq
          cases hd
        | cons e a =>
          obtain ⟨rfl, heq'⟩ := List.cons.inj heq
          exact ⟨a, rfl, heq'.symm⟩
      · exact ⟨a, rfl, heq.symm⟩
    rcases append_eq_append_pair hrest with ⟨z, rfl, rfl⟩ | ⟨rfl, hv⟩ | ⟨z, rfl, hv⟩
    · rcases hu with ⟨-, hu⟩ | ⟨op, hm, hu⟩
      · have := congrArg List.length hu
        simp only [List.length_append, List.length_cons, List.length_nil] at this
        omega
      · exact .inr (inFunction_of_symbol hd hm hu hstar)
    · rw [List.reverse_append, List.append_assoc] at hv
      exact .inl (log_prefix_of_digit hd hc hv)
    · rcases letter_of_digit hd hc hv with hlog | ⟨op, u', v', a', b', hop, rfl, rfl, hbreak⟩
      · exact .inl hlog
      · refine .inr ⟨op, u', v', star ++ (u ++ a'), b', hop, by simp, rfl, ?_⟩
        have hfront : a'.reverse ++ u.reverse ≠ [] := by simp [hne]
        rw [List.reverse_append, List.reverse_append, List.append_assoc,
          List.head?_append_of_ne_nil _ hfront]
        rwa [← List.append_assoc, List.head?_append_of_ne_nil _ hfront] at hbreak
termination_by s.length

/-! ### Names in their places -/

/-- Behind the text an operand may begin. -/
def OpensOperand (a : List Char) : Prop :=
  a = [] ∨ a.getLast? = some '(' ∨ ∃ op : Operator, op.symbol <:+ a

/-- In front of the text an operand may end. -/
def ClosesOperand (b : List Char) : Prop :=
  b = [] ∨ b.head? = some ')' ∨ ∃ op : Binary, op.symbol <+: b

/-- Every name of the tree stands somewhere in the text as an operand. -/
theorem Spells.exists_name {s : List Char} {t : Tree} (h : Spells s t) {a b : List Char}
    (ha : OpensOperand a) (hb : ClosesOperand b) {y : String} (hy : y ∈ t.names) :
    ∃ a' b', a ++ (s ++ b) = a' ++ (y.toList ++ b') ∧ isName y.toList = true ∧
      OpensOperand a' ∧ ClosesOperand b' := by
  induction h generalizing a b with
  | @inBrackets s t _ ih =>
    obtain ⟨a', b', heq, hname, ha', hb'⟩ := @ih (a ++ ['(']) (')' :: b)
      (.inr (.inl List.getLast?_concat)) (.inr (.inl rfl)) hy
    refine ⟨a', b', ?_, hname, ha', hb'⟩
    rw [← heq]
    simp [Tree.inBrackets]
  | @name s hname =>
    obtain rfl := List.mem_singleton.mp hy
    exact ⟨a, b, by rw [String.toList_ofList], by rwa [String.toList_ofList], ha, hb⟩
  | number => cases hy
  | @sign op s t hop _ ih =>
    obtain ⟨a', b', heq, hname, ha', hb'⟩ := @ih (a ++ op.symbol) b
      (.inr (.inr ⟨.binary op, List.suffix_append _ _⟩)) hb hy
    exact ⟨a', b', by rw [← heq]; simp, hname, ha', hb'⟩
  | @unary op s t _ ih =>
    obtain ⟨a', b', heq, hname, ha', hb'⟩ := @ih (a ++ op.symbol) b
      (.inr (.inr ⟨.unary op, List.suffix_append _ _⟩)) hb hy
    exact ⟨a', b', by rw [← heq]; simp, hname, ha', hb'⟩
  | @binary op s s' t t' _ _ ih ih' =>
    rcases List.mem_append.mp hy with hy | hy
    · obtain ⟨a', b', heq, hname, ha', hb'⟩ := @ih a (op.symbol ++ (s' ++ b)) ha
        (.inr (.inr ⟨op, List.prefix_append _ _⟩)) hy
      exact ⟨a', b', by rw [← heq]; simp, hname, ha', hb'⟩
    · obtain ⟨a', b', heq, hname, ha', hb'⟩ := @ih' (a ++ (s ++ op.symbol)) b
        (.inr (.inr ⟨.binary op, by simp [← List.append_assoc]⟩)) hb hy
      exact ⟨a', b', by rw [← heq]; simp, hname, ha', hb'⟩

/-- Behind a name no word but `log` goes on. -/
theorem ClosesOperand.eq_l {b : List Char} (h : ClosesOperand b) {c : Char} (hc : c ∈ b.head?)
    (hword : isWordChar c = true) : c = 'l' := by
  rcases h with rfl | hclose | ⟨op, u, rfl⟩
  · cases hc
  · rw [hclose] at hc
    obtain rfl := Option.some.inj hc
    revert hword
    decide
  · have hne : op.symbol ≠ [] := (Operator.binary op).symbol_ne_nil
    have hmark : ∀ e ∈ op.symbol.head?, isWordChar e = true → e = 'l' := by
      cases op <;> decide
    rw [List.head?_append_of_ne_nil _ hne] at hc
    exact hmark c hc hword

/-! ### Small letters and then digits -/

theorem isAsciiDigit_of_mem {s : List Char} (hword : ∀ c ∈ s, isWordChar c = true)
    (hhead : ∀ c ∈ s.head?, isAsciiDigit c = true)
    (h : ∀ u d c v, s = u ++ d :: c :: v → isAsciiDigit d = true → isAsciiLetter c = false) :
    ∀ c ∈ s, isAsciiDigit c = true := by
  induction s with
  | nil => simp
  | cons d s ih =>
    have hd := hhead d rfl
    have hnext : ∀ c ∈ s.head?, isAsciiDigit c = true := by
      intro c hc
      cases s with
      | nil => cases hc
      | cons c' s =>
        obtain rfl := Option.some.inj hc
        have hc := hword c' (List.mem_cons_of_mem d (List.mem_cons_self ..))
        rw [isWordChar, h [] d c' s rfl hd] at hc
        exact hc
    intro c hc
    rcases List.mem_cons.mp hc with rfl | hc
    · exact hd
    · refine ih (fun c hc => hword c (List.mem_cons_of_mem d hc)) hnext ?_ c hc
      rintro u e c v rfl
      exact h (d :: u) e c v rfl

theorem isNeat_of_isIdentifier {s : List Char} (hid : isIdentifier s = true)
    (hsmall : ∀ c ∈ s, IsSmall c)
    (h : ∀ u d c v, s = u ++ d :: c :: v → isAsciiDigit d = true → isAsciiLetter c = false) :
    IsNeat s := by
  have hword : ∀ c ∈ s, isWordChar c = true := fun _ => mem_isIdentifier hid
  have hs := List.takeWhile_append_dropWhile (p := isAsciiLetter) (l := s)
  refine ⟨s.takeWhile isAsciiLetter, s.dropWhile isAsciiLetter, hs.symm, ?_, ?_, ?_⟩
  · cases s with
    | nil => cases hid
    | cons c s =>
      rw [isIdentifier, Bool.and_eq_true] at hid
      simp [List.takeWhile, hid.1]
  · intro c hc
    have hletter := List.mem_takeWhile_imp hc
    have hcapital := (hsmall c (List.takeWhile_subset _ hc)).1
    rw [isAsciiLetter_iff] at hletter
    have hrange : 97 ≤ c.toNat ∧ c.toNat ≤ 122 := by omega
    exact hrange
  · refine isAsciiDigit_of_mem (fun c hc => hword c (List.dropWhile_subset _ hc)) ?_ ?_
    · intro c hc
      have hletter := List.head?_dropWhile_not isAsciiLetter s
      rw [hc] at hletter
      have := hword c (List.dropWhile_subset _ (List.mem_of_mem_head? hc))
      rw [isWordChar] at this
      simpa [hletter] using this
    · intro u d c v heq
      refine h (s.takeWhile isAsciiLetter ++ u) d c v ?_
      rw [List.append_assoc, ← heq, hs]

/-! ### Names that are read -/

section
variable {y a b u v : List Char} {d c : Char}

/-- The symbol of `log` does not begin in a name and end behind it. -/
theorem not_log_prefix (hb : ClosesOperand b) (hop : hasOperator y = false)
    (hy : y = u ++ d :: c :: v) : ¬ Binary.log.symbol <+: c :: (v ++ b) := by
  intro h
  have hinfix : c :: v <:+: y := ⟨u ++ [d], [], by simp [hy]⟩
  have htail : ∀ e ∈ Binary.log.symbol.tail, isWordChar e = true ∧ e ≠ 'l' := by
    decide
  have hlead : Binary.log.symbol <+: c :: v := by
    refine prefix_of_prefix_append (List.cons_ne_nil _ _) h ?_
    intro e he hmem
    exact (htail e hmem).2 (hb.eq_l he (htail e hmem).1)
  rw [@hasOperator_of_contains (.binary .log) y (hlead.isInfix.trans hinfix)] at hop
  cases hop

/-- No symbol ends inside one that has a digit, and there is no `l` in such a symbol. -/
theorem symbol_of_digit (op : Operator) (hd : isAsciiDigit d = true) (hmem : d ∈ op.symbol) :
    hasOperator op.symbol.dropLast = false ∧ 'l' ∉ op.symbol := by
  refine Operator.forall_of_byLength (p := fun op => ∀ d ∈ op.symbol, isAsciiDigit d = true →
    hasOperator op.symbol.dropLast = false ∧ 'l' ∉ op.symbol) ?_ op d hmem hd
  decide +kernel

/-- No operand begins inside a symbol that has a digit. -/
theorem not_opensOperand {op : Operator} {w z a' : List Char} (hd : isAsciiDigit d = true)
    (hmem : d ∈ op.symbol) (hw : w ≠ []) (hz : z ≠ []) (hop : op.symbol = w ++ z)
    (hbreak : ∀ e ∈ a'.getLast?, isWordChar e = false) : ¬ OpensOperand (a' ++ w) := by
  have hisWord := Operator.isWord_of_mem hmem (isWordChar_of_isAsciiDigit hd)
  have hlast : isWordChar (w.getLast hw) = true := by
    refine Operator.isWordChar_of_isWord hisWord ?_
    rw [hop]
    exact List.mem_append_left z (List.getLast_mem hw)
  have hinside : ∀ op' : Operator, ¬ op'.symbol <:+ w := by
    intro op' h
    have hdropLast : w <:+: op.symbol.dropLast := by
      rw [hop, List.dropLast_append_of_ne_nil hz]
      exact (List.prefix_append w _).isInfix
    have := hasOperator_of_contains (h.isInfix.trans hdropLast)
    rw [(symbol_of_digit op hd hmem).1] at this
    cases this
  rintro (hnil | hopen | ⟨op', hsuffix⟩)
  · exact hw (List.append_eq_nil_iff.mp hnil).2
  · rw [List.getLast?_append_of_ne_nil _ hw, List.getLast?_eq_some_getLast hw,
      Option.some.injEq] at hopen
    rw [hopen] at hlast
    revert hlast
    decide
  · refine hinside op' (Operator.symbol_suffix_of_append ⟨_, ?_, hlast⟩ hbreak hsuffix)
    exact List.getLast?_eq_some_getLast hw

/-- The symbol of a function does not reach into a name. -/
theorem not_inFunction (ha : OpensOperand a) (hb : ClosesOperand b) (hop : hasOperator y = false)
    (hy : y = u ++ d :: c :: v) (hd : isAsciiDigit d = true) :
    ¬ InFunction [] (a ++ u) d c (v ++ b) := by
  rintro ⟨op, u', v', a', b', hsymbol, hleft, hright, hbreak⟩
  have hmem : d ∈ (Operator.unary op).symbol := by simp [hsymbol]
  have hisWord := Operator.isWord_of_mem hmem (isWordChar_of_isAsciiDigit hd)
  obtain ⟨w, rfl⟩ : ∃ w, v = v' ++ w := by
    rcases List.append_eq_append_iff.mp hright with ⟨w, hv', hb'⟩ | ⟨w, hv, -⟩
    · cases w with
      | nil => exact ⟨[], by simpa using hv'.symm⟩
      | cons e w =>
        have he : e ∈ (Operator.unary op).symbol := by simp [hsymbol, hv']
        have hl := hb.eq_l (c := e) (by simp [hb']) (Operator.isWordChar_of_isWord hisWord he)
        exact absurd (hl ▸ he) (symbol_of_digit (.unary op) hd hmem).2
    · exact ⟨w, hv⟩
  have hinside : ∀ x, u ≠ x ++ u' := by
    rintro x rfl
    have hinfix : op.symbol <:+: y := ⟨x, w, by simp [hsymbol, hy]⟩
    rw [@hasOperator_of_contains (.unary op) y hinfix] at hop
    cases hop
  rcases List.append_eq_append_iff.mp hleft with ⟨x, -, hu⟩ | ⟨x, rfl, hu'⟩
  · exact hinside x hu
  · have hx : x ≠ [] := by
      rintro rfl
      exact hinside [] hu'.symm
    rw [List.append_nil, List.head?_reverse] at hbreak
    refine not_opensOperand (z := u ++ d :: c :: v') hd hmem hx (by simp) ?_ hbreak ha
    rw [Operator.symbol_unary, hsymbol, hu', List.append_assoc]

end

/-- The names in a tree that is read from a prepared formula. -/
theorem isNeat_of_read {source p : List Char} {t : Tree} (hp : prepare source = .ok p)
    (h : read p = .ok t) {y : String} (hy : y ∈ t.names) :
    IsNeat y.toList ∧ hasOperator y.toList = false := by
  obtain ⟨a, b, heq, hname, ha, hb⟩ := (spells_of_read h).exists_name (.inl rfl) (.inl rfl) hy
  rw [List.append_nil, List.nil_append] at heq
  have hsmall : ∀ c ∈ y.toList, IsSmall c := fun c hc =>
    isSmall_of_prepare hp (by rw [heq]; simp [hc])
  have hline : '\n' ∉ y.toList := fun hmem => (hsmall _ hmem).2 rfl
  rw [isName, withoutLineEnd_of_not_mem hline, Bool.and_eq_true, Bool.not_eq_true'] at hname
  refine ⟨isNeat_of_isIdentifier hname.1 hsmall fun u d c v hu hd => ?_, hname.2⟩
  by_contra hc
  obtain ⟨-, -, hs⟩ := prepare_eq_ok_iff.mp hp
  rw [← hs, hu] at heq
  have hsplit : insertProductsFrom [] (expandScientific (normalize source)) =
      a ++ u ++ d :: c :: (v ++ b) := by
    rw [← insertProducts, heq]
    simp
  rcases letter_of_digit hd (by simpa using hc) hsplit with hlog | hfunction
  · exact not_log_prefix hb hname.2 hu hlog
  · exact not_inFunction ha hb hname.2 hu hd hfunction

end Formula

end Reckon
