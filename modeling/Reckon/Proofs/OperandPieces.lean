import Reckon.Proofs.PrefixApplications

/-!
# Pieces of operands

Every search for the end of an operand runs over a text in the same pieces: pairs of brackets,
symbols, other characters (`Pieces`). Searches differ only in where they stop. So what one search
took is taken by another one that gets as far, wherever that began, and it is taken whole when it
stands alone (`Pieces.argumentFrom`).

The operand of a function holds no operator at which the search stops. A text that lies in such an
operand `IsUncut`, and so do the operands in it (`isInherited_isUncut`).
-/

namespace Reckon.Formula

/-! ### The partner of a bracket in a shorter text -/

section
variable {depth : Int} {place k : Nat} {s rest : List Char}

/-- A character changes the depth, and the search ends there or goes on with that depth. -/
theorem exists_closingFrom_cons (depth : Int) (c : Char) :
    ∃ depth', ∀ place s, closingFrom depth place (c :: s) =
      if depth' = 0 then some place else closingFrom depth' (place + 1) s :=
  ⟨_, fun _ _ => rfl⟩

theorem bounds_of_closingFrom (h : closingFrom depth place s = some k) :
    place ≤ k ∧ k < place + s.length := by
  induction s generalizing depth place with
  | nil => cases h
  | cons c s ih =>
    obtain ⟨depth', hcons⟩ := exists_closingFrom_cons depth c
    rw [hcons] at h
    rw [List.length_cons]
    split at h
    · cases h
      omega
    · have := ih h
      omega

/-- A partner within the first part of a text is found in that part alone. -/
theorem closingFrom_append_iff (hk : k < place + s.length) :
    closingFrom depth place (s ++ rest) = some k ↔ closingFrom depth place s = some k := by
  induction s generalizing depth place with
  | nil =>
    refine iff_of_false (fun h => ?_) (by rintro ⟨⟩)
    exact absurd (bounds_of_closingFrom h).1 (Nat.not_le.mpr hk)
  | cons c s ih =>
    obtain ⟨depth', hcons⟩ := exists_closingFrom_cons depth c
    rw [List.cons_append, hcons, hcons]
    split
    · rfl
    · exact ih (by rw [List.length_cons] at hk; omega)

/-- In the first part of a text no other partner is found than in the text. -/
theorem closing?_of_append (hk : k < s.length) (h : (closing? (s ++ rest)).getD 0 = k) :
    (closing? s).getD 0 = k := by
  rw [closing?] at h ⊢
  cases hlong : closingFrom 0 0 (s ++ rest) with
  | some k' =>
    rw [hlong, Option.getD_some] at h
    rw [(closingFrom_append_iff (by omega)).mp hlong, Option.getD_some, h]
  | none =>
    rw [hlong] at h
    cases hshort : closingFrom 0 0 s with
    | none => exact h
    | some k' =>
      rw [(closingFrom_append_iff (bounds_of_closingFrom hshort).2).mpr hshort] at hlong
      cases hlong

end

/-! ### Pieces -/

/-- The text `s` in front of `rest` falls into pieces that every search takes whole. -/
inductive Pieces (rest : List Char) : List Char → Prop
  | nil : Pieces rest []
  | bracket {b s : List Char} :
      (closing? ('(' :: (b ++ (s ++ rest)))).getD 0 = b.length → Pieces rest s →
        Pieces rest ('(' :: (b ++ s))
  | operator {op : Operator} {s : List Char} :
      Operator.longestMatch (op.symbol ++ (s ++ rest)) = some op → Pieces rest s →
        Pieces rest (op.symbol ++ s)
  | character {c : Char} {s : List Char} :
      c ≠ '(' → Operator.longestMatch (c :: (s ++ rest)) = none → Pieces rest s →
        Pieces rest (c :: s)

section
variable {p : Option Operator} {op : Operator} {taken b s rest : List Char} {c : Char}

theorem longestMatch_of_append (h : Operator.longestMatch (op.symbol ++ (s ++ rest)) = some op) :
    Operator.longestMatch (op.symbol ++ s) = some op := by
  rw [← List.append_assoc] at h
  refine Operator.longestMatch_eq_some_iff.mpr ⟨List.prefix_append _ _, fun op' h' => ?_⟩
  exact Operator.length_le_of_longestMatch h (h'.trans (List.prefix_append _ _))

theorem longestMatch_eq_none_of_append (h : Operator.longestMatch (c :: (s ++ rest)) = none) :
    Operator.longestMatch (c :: s) = none := by
  rw [← List.cons_append, Operator.longestMatch_eq_none_iff] at h
  refine Operator.longestMatch_eq_none_iff.mpr fun op hop => ?_
  exact h op (hop.trans (List.prefix_append _ _))

/-- A search goes on behind the partner of a bracket. -/
theorem argumentFrom_bracket (h : (closing? ('(' :: (b ++ s))).getD 0 = b.length) :
    argumentFrom p taken ('(' :: (b ++ s)) = argumentFrom p (('(' :: b).reverse ++ taken) s := by
  rw [argumentFrom, if_pos rfl]
  simp only [h, List.take_left, List.drop_left]

/-- Whether a search that has taken so much stops at an operator. -/
def StopsAt (p : Option Operator) (taken : List Char) (op : Operator) : Prop :=
  taken ≠ [] ∧ isBinaryOperator (backTrack taken) = false ∧ endsOperandOf p op = true

theorem argumentFrom_of_not_stopsAt (hm : Operator.longestMatch (op.symbol ++ s) = some op)
    (h : ¬StopsAt p taken op) :
    argumentFrom p taken (op.symbol ++ s) = argumentFrom p (op.symbol.reverse ++ taken) s := by
  refine argumentFrom_operator hm ?_
  by_contra hgo
  simp only [not_or, Bool.not_eq_true, Bool.not_eq_false] at hgo
  exact h hgo

/-- What a search takes falls into pieces. -/
theorem exists_pieces (p : Option Operator) (taken s : List Char) :
    ∃ u, (argumentFrom p taken s).1 = taken.reverse ++ u ∧ s = u ++ (argumentFrom p taken s).2 ∧
      Pieces (argumentFrom p taken s).2 u := by
  fun_induction argumentFrom p taken s with
  | case1 taken => exact ⟨[], by simp, rfl, .nil⟩
  | case2 taken rest k ih =>
    obtain ⟨u, htaken, hrest, hu⟩ := ih
    have hk : k ≤ rest.length := by
      cases hclosing : closing? ('(' :: rest) with
      | none => simp [k, hclosing]
      | some j =>
        have := (bounds_of_closingFrom hclosing).2
        simp only [List.length_cons] at this
        simp only [k, hclosing, Option.getD_some]
        omega
    refine ⟨'(' :: (rest.take k ++ u), by rw [htaken]; simp, ?_, .bracket ?_ hu⟩
    · rw [List.cons_append, List.append_assoc, ← hrest, List.take_append_drop]
    · rw [← hrest, List.take_append_drop, List.length_take, Nat.min_eq_left hk]
  | case3 taken c rest hc hm ih =>
    obtain ⟨u, htaken, hrest, hu⟩ := ih
    refine ⟨c :: u, by rw [htaken]; simp, by rw [List.cons_append, ← hrest], .character hc ?_ hu⟩
    rwa [← hrest]
  | case4 taken c rest hc next hm hstop => exact ⟨[], by simp, rfl, .nil⟩
  | case5 taken c rest hc next hm hgo ih =>
    obtain ⟨u, htaken, hrest, hu⟩ := ih
    have heq := Operator.eq_append_of_longestMatch hm
    refine ⟨next.symbol ++ u, by rw [htaken]; simp, ?_, .operator ?_ hu⟩
    · rw [List.append_assoc, ← hrest]
      exact heq
    · rwa [← hrest, ← heq]

/-- Pieces that a search gets past are taken whole, also where nothing follows. -/
theorem Pieces.argumentFrom (h : Pieces rest s)
    (hpast : taken.length + s.length ≤ (argumentFrom p taken (s ++ rest)).1.length) :
    argumentFrom p taken s = (taken.reverse ++ s, []) ∧
      Formula.argumentFrom p taken (s ++ rest) =
        Formula.argumentFrom p (s.reverse ++ taken) rest := by
  induction h generalizing taken with
  | nil => exact ⟨by simp, rfl⟩
  | @bracket b s hb h ih =>
    have hshort : (closing? ('(' :: (b ++ s))).getD 0 = b.length := by
      refine @closing?_of_append b.length _ rest ?_ ?_
      · rw [List.length_cons, List.length_append]
        omega
      · simpa using hb
    simp only [List.cons_append, List.append_assoc] at hpast ⊢
    rw [argumentFrom_bracket hb] at hpast ⊢
    rw [argumentFrom_bracket hshort]
    obtain ⟨hs, hrest⟩ := @ih (('(' :: b).reverse ++ taken) (by simp at hpast ⊢; omega)
    rw [hs, hrest]
    simp
  | @operator op s hm h ih =>
    have hshort := longestMatch_of_append hm
    simp only [List.append_assoc] at hpast ⊢
    by_cases hstop : StopsAt p taken op
    · -- then nothing of the piece would have been taken
      have := op.length_symbol_pos
      rw [argumentFrom_stop hm hstop.1 hstop.2.1 hstop.2.2] at hpast
      simp only [List.length_append, List.length_reverse] at hpast
      omega
    rw [argumentFrom_of_not_stopsAt hm hstop] at hpast ⊢
    rw [argumentFrom_of_not_stopsAt hshort hstop]
    obtain ⟨hs, hrest⟩ := @ih (op.symbol.reverse ++ taken) (by simp at hpast ⊢; omega)
    rw [hs, hrest]
    simp
  | @character c s hc hm h ih =>
    simp only [List.cons_append] at hpast ⊢
    rw [argumentFrom_cons hc hm] at hpast ⊢
    rw [argumentFrom_cons hc (longestMatch_eq_none_of_append hm)]
    obtain ⟨hs, hrest⟩ := @ih (c :: taken) (by simp at hpast ⊢; omega)
    rw [hs, hrest]
    simp

/-- What a search takes it takes where nothing follows. -/
theorem argumentFrom_alone {u v : List Char}
    (h : argumentFrom p taken s = (taken.reverse ++ u, v)) :
    argumentFrom p taken u = (taken.reverse ++ u, []) := by
  obtain ⟨u', htaken, hs, hu⟩ := exists_pieces p taken s
  obtain rfl : u = u' := by
    rw [h] at htaken
    exact List.append_cancel_left htaken
  refine (hu.argumentFrom ?_).1
  rw [← hs, htaken, List.length_append, List.length_reverse]

end

/-! ### Operands of functions -/

/-- A search that has taken `taken` runs over all of `s`: no operator in it ends the operand of a
function. -/
def RunsOver (taken s : List Char) : Prop :=
  argumentFrom (some (.unary .sin)) taken s = (taken.reverse ++ s, [])

/-- The text lies in the operand of a function. -/
def IsUncut (s : List Char) : Prop :=
  ∃ taken, RunsOver taken s

/-- A property that a text hands down to what is behind an operator and to its operands. -/
structure IsInherited (P : List Char → Prop) : Prop where
  symbol {s : List Char} {op : Operator} :
    P s → Operator.longestMatch s = some op → P (s.drop op.symbol.length)
  argument {s : List Char} (p : Option Operator) :
    P s → P (argument p s).1 ∧ P (argument p s).2

theorem isInherited_true : IsInherited fun _ => True :=
  ⟨fun _ _ => trivial, fun _ _ => ⟨trivial, trivial⟩⟩

section
variable {taken s u v : List Char} {op : Operator}

namespace RunsOver

theorem append (h : RunsOver taken (u ++ v)) (hu : Pieces v u) :
    RunsOver taken u ∧ RunsOver (u.reverse ++ taken) v := by
  have hpast : taken.length + u.length ≤
      (argumentFrom (some (.unary .sin)) taken (u ++ v)).1.length := by
    rw [h]
    simp only [List.length_append, List.length_reverse]
    omega
  obtain ⟨hshort, hrest⟩ := hu.argumentFrom hpast
  refine ⟨hshort, ?_⟩
  rw [RunsOver, ← hrest, h]
  simp

theorem not_stopsAt (h : RunsOver taken s) (hm : Operator.longestMatch s = some op) :
    ¬StopsAt (some (.unary .sin)) taken op := by
  intro hstop
  rw [RunsOver, argumentFrom_stop hm hstop.1 hstop.2.1 hstop.2.2] at h
  obtain ⟨c, rest, rfl, -⟩ := eq_cons_of_longestMatch hm
  cases (Prod.ext_iff.mp h).2

theorem symbol (h : RunsOver taken s) (hm : Operator.longestMatch s = some op) :
    RunsOver (op.symbol.reverse ++ taken) (s.drop op.symbol.length) := by
  have hs := Operator.eq_append_of_longestMatch hm
  have hpiece : Pieces (s.drop op.symbol.length) (op.symbol ++ []) :=
    .operator (by rw [List.nil_append, ← hs]; exact hm) .nil
  rw [List.append_nil] at hpiece
  rw [hs] at h
  exact (h.append hpiece).2

theorem argument (h : RunsOver taken s) (p : Option Operator) :
    RunsOver taken (argument p s).1 ∧
      RunsOver ((Formula.argument p s).1.reverse ++ taken) (Formula.argument p s).2 := by
  obtain ⟨u, htaken, hs, hu⟩ := exists_pieces p [] s
  rw [← Formula.argument] at htaken hs hu
  rw [hs] at h
  rw [htaken]
  exact h.append hu

end RunsOver

theorem isInherited_isUncut : IsInherited IsUncut where
  symbol h hm := h.elim fun _ h => ⟨_, h.symbol hm⟩
  argument p h := h.elim fun _ h => ⟨⟨_, (h.argument p).1⟩, ⟨_, (h.argument p).2⟩⟩

/-- Where every operator ends an operand that ends the one of a function, the operand is uncut. -/
theorem isUncut_argument {p : Option Operator}
    (hp : ∀ next, endsOperandOf (some (.unary .sin)) next = true → endsOperandOf p next = true)
    (s : List Char) : IsUncut (argument p s).1 := by
  have halone : argumentFrom p [] (argument p s).1 = ((argument p s).1, []) :=
    @argumentFrom_alone p [] s _ (argument p s).2 rfl
  have hover := @argumentFrom_append_before p (some (.unary .sin)) [] [] (argument p s).1 hp
    fun _ => rfl
  rw [halone] at hover
  exact ⟨[], by simpa [RunsOver] using hover⟩

theorem endsOperandOf_mono {op op' next : Operator} (hop : op.rank ≤ op'.rank)
    (h : endsOperandOf (some op') next = true) : endsOperandOf (some op) next = true :=
  decide_eq_true (hop.trans (of_decide_eq_true h))

theorem isUncut_argument_none (s : List Char) : IsUncut (argument none s).1 :=
  isUncut_argument (fun _ _ => rfl) s

theorem isUncut_argument_unary (op : Unary) (s : List Char) :
    IsUncut (argument (some (.unary op)) s).1 := by
  have hrank : (Operator.unary op).rank ≤ (Operator.unary .sin).rank := (unary_rank op).2
  exact isUncut_argument (fun _ h => endsOperandOf_mono hrank h) s

/-! ### What is left of a function name -/

/-- If a binary operator seems to end a text only because of what stands in front, the text is what
is left of its symbol. -/
theorem exists_suffix_of_backTrack {before : List Char}
    (h : isBinaryOperator (backTrack (u.reverse ++ before)) = true)
    (hu : isBinaryOperator (backTrack u.reverse) = false) : ∃ b : Binary, u <:+ b.symbol.tail := by
  obtain ⟨b, hb⟩ := isBinaryOperator_backTrack_iff.mp h
  have hnot : ¬b.symbol.reverse <+: u.reverse := by
    intro hends
    rw [isBinaryOperator_backTrack_iff.mpr ⟨b, hends⟩] at hu
    cases hu
  have hsuffix : u <:+ b.symbol := by
    rcases List.prefix_or_prefix_of_prefix hb (List.prefix_append _ _) with hin | hin
    · exact absurd hin hnot
    · exact List.reverse_prefix.mp hin
  refine ⟨b, ?_⟩
  obtain ⟨c, t, hct⟩ : ∃ c t, b.symbol = c :: t :=
    List.exists_cons_of_ne_nil (Operator.binary b).symbol_ne_nil
  rw [hct] at hsuffix ⊢
  rcases List.suffix_cons_iff.mp hsuffix with rfl | hsuffix
  · exact absurd (by rw [hct]) hnot
  · exact hsuffix

/-- The operand of a function goes on behind the operand of a function in it only where a binary
operator seems to stand, which begins in the name of the inner function. -/
theorem exists_suffix_of_isUncut {f : Unary} {b : Binary} (h : IsUncut s)
    (hm : Operator.longestMatch s = some (.unary f))
    (hb : Operator.longestMatch (argument (some (.unary f)) (s.drop f.symbol.length)).2 =
      some (.binary b)) :
    ∃ b' : Binary, (argument (some (.unary f)) (s.drop f.symbol.length)).1 <:+ b'.symbol.tail := by
  obtain ⟨taken, h⟩ := h
  have hgoes := ((h.symbol hm).argument (some (.unary f))).2.not_stopsAt hb
  have hends : endsOperandOf (some (.unary .sin)) (.binary b) = true :=
    decide_eq_true ((by decide : 2 ≤ 3).trans (three_le_rank b))
  have hrest : (argument (some (.unary f)) (s.drop f.symbol.length)).2 ≠ [] := by
    intro hnil
    rw [hnil] at hb
    cases hb
  have hfirst := argumentFrom_ne_nil hrest
  suffices hseems : isBinaryOperator (backTrack
      ((argument (some (.unary f)) (s.drop f.symbol.length)).1.reverse ++
        (f.symbol.reverse ++ taken))) = true from
    exists_suffix_of_backTrack hseems hfirst.2
  by_contra hnot
  refine hgoes ⟨List.append_ne_nil_of_left_ne_nil ?_ _, by simpa using hnot, hends⟩
  exact List.reverse_eq_nil_iff.not.mpr hfirst.1

/-- No operator stands behind the first character of a symbol of a binary one. -/
theorem not_infix_tail (b : Binary) (op : Operator) : ¬op.symbol <:+: b.symbol.tail :=
  Operator.forall₂_of_byLength
    (p := fun b op => b.isBinary = true → ¬op.symbol <:+: b.symbol.tail) (by decide +kernel)
    (.binary b) op rfl

/-- What is left of a symbol of a binary operator is a name, if it is read. -/
theorem isCompound_of_readLevels_tail {b : Binary} {levels : Nat} {t : Tree}
    (hs : s <:+ b.symbol.tail) (h : readLevels levels s = .ok t) : t.isCompound = false := by
  have hbracket : ∀ c ∈ s, isBracket c = false := fun c hc =>
    isBracket_of_mem_symbol (.binary b) c (List.mem_of_mem_tail (hs.subset hc))
  have hop : ∀ op : Operator, ¬op.symbol <:+: s := fun op hop =>
    not_infix_tail b op (hop.trans hs.isInfix)
  cases levels with
  | zero => cases h
  | succ levels =>
  rw [readLevels] at h
  split at h
  · cases h
  rename_i hne
  split at h
  · rename_i inner henclosed
    rcases eq_of_enclosed? henclosed with rfl | rfl
    · exact absurd (hbracket '(' (by simp [Tree.inBrackets])) (by decide)
    · cases levels <;> cases h
  split at h
  · cases h
    rfl
  split at h
  · cases h
    rfl
  · have hnone : Operator.longestMatch s = none :=
      Operator.longestMatch_eq_none_iff.mpr fun op hprefix => hop op hprefix.isInfix
    obtain ⟨-, op, hmatch⟩ := exists_of_readChain_operand (by simpa using hne) hnone h
    rw [argument, argumentFrom_of_not_infix hbracket hop] at hmatch
    cases hmatch

end

end Reckon.Formula
