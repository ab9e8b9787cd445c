import Reckon.Proofs.Swapped

/-!
# Preparing what stands in brackets

Every step of preparing a text stops at a bracket: no character behind it changes what is done in
front of it, and none in front of it what is done behind it, but for a `*` before the bracket
itself. So a text in brackets is prepared as if it stood alone (`prepared_around`), and it
has to be free of nonsense on its own (`validate_around`). Another text may take its place
(`exists_readsWithin_around`).
-/

namespace Reckon

namespace Formula

open Reckon.Text

section
variable {c : Char}

theorem isExponentStart_append_bracket (hc : c = '(' ∨ c = ')') (s t : List Char) :
    isExponentStart (s ++ c :: t) = isExponentStart s := by
  rcases s with _ | ⟨d, _ | ⟨d', s⟩⟩
  · rcases hc with rfl | rfl <;> rfl
  · by_cases hd : d = '+' ∨ d = '-'
    · rcases hd with rfl | rfl <;> rcases hc with rfl | rfl <;> rfl
    · rw [not_or] at hd
      simp [isExponentStart, hd]
  · by_cases hd : d = '+' ∨ d = '-'
    · rcases hd with rfl | rfl <;> rfl
    · rw [not_or] at hd
      simp [isExponentStart, hd]

theorem expandScientificFrom_append_bracket (hc : c = '(' ∨ c = ')') (afterDigit : Bool)
    (s t : List Char) :
    expandScientificFrom afterDigit (s ++ c :: t) =
      expandScientificFrom afterDigit s ++ c :: expandScientific t := by
  induction s generalizing afterDigit with
  | nil =>
    have hbracket : isDigit c = false ∧ c ≠ 'e' := by
      rcases hc with rfl | rfl <;> decide
    simp [expandScientificFrom, expandScientific, hbracket]
  | cons d s ih =>
    rw [List.cons_append, expandScientificFrom, expandScientificFrom,
      isExponentStart_append_bracket hc, ih]
    split <;> rfl

/-! ### Products -/

theorem isNone_backTrack_iff {before : List Char} :
    (backTrack before).isNone = true ↔ ∀ op : Operator, ¬op.symbol.reverse <+: before := by
  rw [Option.isNone_iff_eq_none]
  constructor
  · intro h op hop
    obtain ⟨op', hop', -⟩ := exists_operatorAtEnd ((symbol_suffix_take_iff op).mpr hop)
    rw [← backTrack, h] at hop'
    cases hop'
  · intro h
    cases hback : backTrack before with
    | none => rfl
    | some op =>
      have hsuffix := symbol_suffix_of_operatorAtEnd hback
      exact absurd ((symbol_suffix_take_iff op).mp hsuffix) (h op)

theorem isNone_backTrack_append_bracket (hc : c = '(' ∨ c = ')') (s t : List Char) :
    (backTrack (s ++ c :: t)).isNone = (backTrack s).isNone := by
  rw [Bool.eq_iff_iff, isNone_backTrack_iff, isNone_backTrack_iff]
  exact forall_congr' fun op => not_congr (symbol_prefix_append_bracket hc op s t)

theorem meansProduct_behind (hc : c = '(' ∨ c = ')') (u before : List Char) (d : Char)
    (op : Option Operator) :
    meansProduct (u ++ c :: before) d op = meansProduct (u ++ [c]) d op := by
  have hback := isNone_backTrack_append_bracket hc u before
  have hback' := isNone_backTrack_append_bracket hc u []
  cases u with
  | nil =>
    rw [List.nil_append] at hback hback' ⊢
    simp only [meansProduct, List.nil_append, hback, hback']
  | cons e u =>
    simp only [List.cons_append, meansProduct] at hback hback' ⊢
    rw [hback, hback']

theorem meansProduct_open (u before : List Char) (d : Char) (op : Option Operator) :
    meansProduct (u ++ '(' :: before) d op = meansProduct u d op := by
  have hback := isNone_backTrack_append_bracket (.inl rfl) u before
  cases u with
  | nil => exact meansProduct_of_break (by simp; decide) op
  | cons e u =>
    simp only [List.cons_append, meansProduct] at hback ⊢
    rw [hback]

theorem insertProductsFrom_of_none {before s : List Char} {d : Char}
    (hm : Operator.longestMatch (d :: s) = none) :
    insertProductsFrom before (d :: s) =
      (if meansProduct before d none then ['*'] else []) ++
        d :: insertProductsFrom (d :: before) s := by
  rw [insertProductsFrom]
  split
  · rename_i h
    rw [hm] at h
    cases h
  · rw [hm]

theorem insertProductsFrom_of_some {before s : List Char} {d : Char} {op : Operator}
    (hm : Operator.longestMatch (d :: s) = some op) :
    insertProductsFrom before (d :: s) =
      (if meansProduct before d (some op) then ['*'] else []) ++ op.symbol ++
        insertProductsFrom (op.symbol.reverse ++ before) ((d :: s).drop op.symbol.length) := by
  rw [insertProductsFrom]
  split
  · rename_i h
    rw [hm] at h
    cases h
    rw [hm]
  · rename_i h
    rw [hm] at h
    cases h

theorem insertProductsFrom_congr {before before' : List Char}
    (h : ∀ u d op, meansProduct (u ++ before) d op = meansProduct (u ++ before') d op)
    (s : List Char) : insertProductsFrom before s = insertProductsFrom before' s := by
  obtain ⟨n, hn⟩ : ∃ n, n = s.length := ⟨_, rfl⟩
  induction n using Nat.strong_induction_on generalizing before before' s with
  | _ n ih =>
    subst hn
    cases s with
    | nil => rw [insertProductsFrom, insertProductsFrom]
    | cons d s =>
      have hhere : ∀ op, meansProduct before d op = meansProduct before' d op := h [] d
      -- more is read in front of what is different
      have hmore : ∀ v u d op, meansProduct (u ++ (v ++ before)) d op =
          meansProduct (u ++ (v ++ before')) d op := by
        intro v u d op
        rw [← List.append_assoc, ← List.append_assoc, h]
      cases hm : Operator.longestMatch (d :: s) with
      | none =>
        have hnext : insertProductsFrom (d :: before) s = insertProductsFrom (d :: before') s :=
          ih s.length (by simp) (hmore [d]) s rfl
        rw [insertProductsFrom_of_none hm, insertProductsFrom_of_none hm, hhere, hnext]
      | some op =>
        rw [insertProductsFrom_of_some hm, insertProductsFrom_of_some hm, hhere,
          ih _ (Operator.length_drop_symbol_lt hm) (hmore op.symbol.reverse) _ rfl]

/-- Products are put between the neighbours on either side of a bracket, and in front of it. -/
theorem insertProductsFrom_append_bracket (hc : c = '(' ∨ c = ')') (before s t : List Char) :
    insertProductsFrom before (s ++ c :: t) =
      insertProductsFrom before s ++
        ((if meansProduct (s.reverse ++ before) c none then ['*'] else []) ++
          c :: insertProductsFrom [c] t) := by
  obtain ⟨n, hn⟩ : ∃ n, n = s.length := ⟨_, rfl⟩
  induction n using Nat.strong_induction_on generalizing before s with
  | _ n ih =>
    subst hn
    cases s with
    | nil =>
      have hbehind : insertProductsFrom (c :: before) t = insertProductsFrom [c] t :=
        insertProductsFrom_congr (meansProduct_behind hc · before) t
      rw [List.nil_append, insertProductsFrom_of_none (longestMatch_bracket hc t), hbehind,
        insertProductsFrom]
      rfl
    | cons d s =>
      have hbracket : Operator.longestMatch (d :: (s ++ c :: t)) = Operator.longestMatch (d :: s) :=
        longestMatch_append_bracket hc (d :: s) t
      cases hm : Operator.longestMatch (d :: s) with
      | none =>
        rw [List.cons_append, insertProductsFrom_of_none (hbracket.trans hm),
          insertProductsFrom_of_none hm, ih s.length (by simp) _ s rfl]
        simp
      | some op =>
        obtain ⟨v, heq⟩ : ∃ v, d :: s = op.symbol ++ v := ⟨_, Operator.eq_append_of_longestMatch hm⟩
        have hlt : v.length < (d :: s).length := by
          have := op.length_symbol_pos
          rw [heq, List.length_append]
          omega
        rw [List.cons_append, insertProductsFrom_of_some (hbracket.trans hm),
          insertProductsFrom_of_some hm, ← List.cons_append, heq, List.append_assoc op.symbol v,
          List.drop_left, List.drop_left, ih v.length hlt _ v rfl]
        simp

end

/-! ### Prepared texts -/

/-- What is prepared in front of a bracket that opens. -/
def preparedBefore (before : List Char) : List Char :=
  let s := expandScientific (normalize before)
  insertProducts s ++ if meansProduct s.reverse '(' none then ['*'] else []

/-- What is prepared behind a bracket that closes. -/
def preparedBehind (after : List Char) : List Char :=
  insertProductsFrom [')'] (expandScientific (normalize after))

theorem preparedBefore_nil : preparedBefore [] = [] := by
  have hnil : insertProducts [] = [] := by rw [insertProducts, insertProductsFrom]
  change insertProducts [] ++ (if meansProduct [] '(' none then ['*'] else []) = []
  rw [hnil]
  rfl

/-- What stands in brackets is prepared on its own. -/
theorem prepared_around (before after w : List Char) :
    prepared (around before after w) =
      around (preparedBefore before) (preparedBehind after) (prepared w) := by
  have hopen : ∀ s, insertProductsFrom ['('] s = insertProducts s :=
    insertProductsFrom_congr fun u d op => by rw [meansProduct_open, List.append_nil]
  have hclose : ∀ u, meansProduct u ')' none = false := fun u =>
    meansProduct_mark (by decide) (by decide)
  rw [around_eq, around_eq, prepared, @normalize_append_mark '(' (by decide),
    @normalize_append_mark ')' (by decide), expandScientific,
    expandScientificFrom_append_bracket (.inl rfl), expandScientific,
    expandScientificFrom_append_bracket (.inr rfl), insertProducts,
    insertProductsFrom_append_bracket (.inl rfl), insertProductsFrom_append_bracket (.inr rfl),
    hclose, hopen, ← expandScientific, ← expandScientific]
  simp [prepared, preparedBefore, preparedBehind, insertProducts]

/-! ### Checked texts -/

theorem validateCharacters_append_bracket {c : Char} (hc : c = '(' ∨ c = ')') (s t : List Char) :
    validateCharacters (s ++ c :: t) = .ok () ↔
      validateCharacters s = .ok () ∧ validateCharacters t = .ok () := by
  induction s with
  | nil =>
    rw [List.nil_append, validateCharacters_bracket hc]
    exact (and_iff_right rfl).symm
  | cons d s ih =>
    have hbracket : Operator.longestMatch (d :: (s ++ c :: t)) = Operator.longestMatch (d :: s) :=
      longestMatch_append_bracket hc (d :: s) t
    rw [List.cons_append, validateCharacters, validateCharacters, hbracket]
    cases hm : Operator.longestMatch (d :: s) with
    | none =>
      simp only
      split
      · exact ih
      · exact ⟨fun h => (by cases h), fun h => (by cases h.1)⟩
    | some op =>
      obtain ⟨v, heq⟩ : ∃ v, d :: s = op.symbol ++ v := ⟨_, Operator.eq_append_of_longestMatch hm⟩
      have hnext : Operator.longestMatch ((d :: (s ++ c :: t)).drop op.symbol.length) =
          Operator.longestMatch ((d :: s).drop op.symbol.length) := by
        rw [← List.cons_append, heq, List.append_assoc, List.drop_left, List.drop_left,
          longestMatch_append_bracket hc]
      simp only [hnext]
      split
      · split
        · exact ih
        · exact ⟨fun h => (by cases h), fun h => (by cases h.1)⟩
      · exact ih

theorem validate_eq_ok_iff {s : List Char} :
    validate s = .ok () ↔ isBalanced s = true ∧ validateCharacters s = .ok () := by
  rw [validate]
  split
  · rename_i h
    exact (and_iff_right h).symm
  · rename_i h
    exact ⟨fun h' => (by cases h'), fun h' => absurd h'.1 h⟩

theorem validateCharacters_around {p q w : List Char} :
    validateCharacters (around p q w) = .ok () ↔ validateCharacters p = .ok () ∧
      validateCharacters w = .ok () ∧ validateCharacters q = .ok () := by
  rw [around_eq, validateCharacters_append_bracket (.inl rfl),
    validateCharacters_append_bracket (.inr rfl)]

/-- Another text that is free of nonsense may stand in the brackets. -/
theorem validate_around {p q u v : List Char} (hu : Nested u) (hvalid : validate v = .ok ())
    (h : validate (around p q u) = .ok ()) : validate (around p q v) = .ok () := by
  rw [validate_eq_ok_iff, validateCharacters_around] at h ⊢
  rw [validate_eq_ok_iff] at hvalid
  refine ⟨?_, h.2.1, hvalid.2, h.2.2.2⟩
  have hbalanced := isBalanced_of_nested hu
  simp only [isBalanced, around, Tree.inBrackets, List.count_append, List.count_cons,
    decide_eq_true_eq] at hbalanced h hvalid ⊢
  simp at h ⊢
  omega

/-! ### Texts that are read -/

/-- The text is free of nonsense and is read as the tree in as many levels, however long it is. -/
def ReadsWithin (levels : Nat) (s : List Char) (t : Tree) : Prop :=
  validate (prepared s) = .ok () ∧ readLevels levels (prepared s) = .ok t

/-- A formula is a text that is not too long and is read in the levels that the reader has. -/
theorem readFormula_eq_ok_iff {s : List Char} {t : Tree} :
    readFormula s = .ok t ↔ s.length ≤ maxLength ∧ ReadsWithin (maxDepth + 1) s t := by
  constructor
  · intro h
    obtain ⟨key, hprepare, h⟩ := bind_eq_ok_iff.mp h
    obtain ⟨hlength, -, rfl⟩ := prepare_eq_ok_iff.mp hprepare
    obtain ⟨⟨⟩, hvalid, hread⟩ := bind_eq_ok_iff.mp h
    exact ⟨hlength, hvalid, hread⟩
  · rintro ⟨hlength, hvalid, hread⟩
    have hne : normalize s ≠ [] := by
      intro hnil
      have hempty : prepared s = [] := by
        rw [prepared, hnil, expandScientific, expandScientificFrom, insertProducts,
          insertProductsFrom]
      rw [hempty] at hread
      cases hread
    have hprepare : prepare s = .ok (prepared s) := prepare_eq_ok_iff.mpr ⟨hlength, hne, rfl⟩
    exact bind_eq_ok_iff.mpr ⟨_, hprepare, bind_eq_ok_iff.mpr ⟨(), hvalid, hread⟩⟩

/-- What stands in brackets may be swapped for a text that is free of nonsense and takes no more
levels. -/
theorem exists_readsWithin_around {u v : List Char} {a c : Tree} (hu : Nested (prepared u))
    (hv : Nested (prepared v)) (hvalid : validate (prepared v) = .ok ())
    (hplace : ∀ levels t, readLevels levels (prepared u) = .ok t →
      t = a ∧ readLevels levels (prepared v) = .ok c)
    {levels : Nat} {before after : List Char} {t : Tree}
    (ht : ReadsWithin levels (around before after u) t) :
    ∃ t', ReadsWithin levels (around before after v) t' ∧ Tree.Swapped a c t t' := by
  rw [ReadsWithin, prepared_around] at ht
  obtain ⟨t', ht', hswapped⟩ := exists_readLevels_around hu hv hplace ht.2
  refine ⟨t', ?_, hswapped⟩
  rw [ReadsWithin, prepared_around]
  exact ⟨validate_around hu hvalid ht.1, ht'⟩

end Formula

end Reckon
