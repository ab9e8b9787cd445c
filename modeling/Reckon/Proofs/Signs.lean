import Reckon.Proofs.ExactValue
import Reckon.Proofs.Phrase

/-!
# Two signs in a row

A formula is written operand by operand, so that a negative number may follow a sign. Where two
signs have become one, the text is that of another phrase, `Phrase.collapse`: a sum whose right
operand is a sum is one long sum, a sign in front of a product is one of the product and not of its
first factor.
Each of the functions it is made of keeps the value (`add_spec`, `multiply_spec`, `outward_spec`).
-/

namespace Reckon.Formula

/-- The sign that two signs in a row make. -/
def signProduct (op op' : Binary) : Binary :=
  if op = op' then .plus else .minus

/-- The value of an operation on values that may be missing. -/
def both (f : ℚ → ℚ → Option ℚ) (a b : Option ℚ) : Option ℚ := do
  f (← a) (← b)

namespace Phrase

/-! ### Joining phrases that begin with a sign -/

/-- The phrase `l op r` for a sign `op`, in front of the first term of `r`. -/
def add (op : Binary) (l : Phrase) : Phrase → Phrase
  | join o p q => if o.isSign then .join o (add op l p) q else .join op l (.join o p q)
  | signed o p => .join (signProduct op o) l p
  | p => .join op l p

/-- The product of `l` and the factors of `p`, the first of them with the sign `o`. -/
def multiplySigned (o : Binary) (l : Phrase) : Phrase → Phrase
  | join op p q =>
    if op = .times then .join .times (multiplySigned o l p) q
    else .join .times l (.signed o (.join op p q))
  | p => .join .times l (.signed o p)

/-- The product of `l` and the factors of `r`. -/
def multiply (l : Phrase) : Phrase → Phrase
  | join op p q =>
    if op = .times then .join .times (multiply l p) q else .join .times l (.join op p q)
  | signed o p => multiplySigned o l p
  | p => .join .times l p

/-- The phrase `l op r` for an operator of products and quotients. -/
def scale (op : Binary) (l r : Phrase) : Phrase :=
  if op = .times then multiply l r else .join op l r

/-- The same with the sign of `l` in front of it all. -/
def outward (op : Binary) : Phrase → Phrase → Phrase
  | signed o p, r => .signed o (scale op p r)
  | l, r => scale op l r

/-- The phrase once two signs in a row have become one. -/
def collapse : Phrase → Phrase
  | literal l => .literal l
  | name x => .name x
  | group p => .group p.collapse
  | apply op p => .apply op p.collapse
  | signed op p => .signed op p.collapse
  | join op l r =>
    if op.isSign then add op l.collapse r.collapse
    else if op.rank = 4 then outward op l.collapse r.collapse
    else .join op l.collapse r.collapse

/-- Factors with `*` between them, none of them with a sign in front of the first. -/
def isFactors : Phrase → Bool
  | join op p _ => if op = .times then p.isFactors else op.rank < 4
  | signed .. => false
  | _ => true

/-- Factors, perhaps with a sign in front. -/
def isProduct : Phrase → Bool
  | signed _ p => p.isFactors
  | p => p.isFactors

/-- Phrases that are read as a whole wherever they stand. -/
def isOperand : Phrase → Bool
  | literal _ | name _ | group _ | apply .. => true
  | _ => false

/-- Operands, perhaps with a sign in front. -/
def isSimple : Phrase → Bool
  | signed _ p => p.isOperand
  | p => p.isOperand

/-! ### Values -/

def value (I : Interpretation) (ρ : String → ℚ) (p : Phrase) : Option ℚ :=
  p.tree.exact I ρ

section
variable {I : Interpretation} {ρ : String → ℚ} {op o : Binary} {l p r : Phrase}

theorem exact_zero : Tree.zero.exact I ρ = some 0 :=
  Decimal.toRat?_zero

theorem exact_binary (op : Binary) (a b : Tree) :
    (Tree.binary op a b).exact I ρ = both (op.exact I) (a.exact I ρ) (b.exact I ρ) :=
  rfl

/-- A number with a sign has the value of the sign in front of the number. -/
theorem toRat?_signedValue (hop : op.isSign = true) (a : Decimal) :
    (signedValue op a).toRat? = both (op.exact I) (some 0) a.toRat? := by
  cases op with
  | plus => cases h : a.toRat? <;> simp [signedValue, both, Binary.exact, h]
  | minus => cases h : a.toRat? <;> simp [signedValue, both, Binary.exact, Decimal.toRat?_flip, h]
  | _ => cases hop

/-- What follows a phrase does not change its value. -/
theorem exact_treeAs (h : p.WellFormed) (alone : Bool) :
    (p.treeAs alone).exact I ρ = p.value I ρ := by
  cases alone with
  | true => rfl
  | false =>
    cases h with
    | literal | name | group | apply | join => rfl
    | @signed op p hop _ _ =>
      cases p with
      | literal l =>
        rw [value, tree, treeAs, treeAs, if_neg (by decide), if_pos rfl, exact_binary, exact_zero]
        exact (toRat?_signedValue hop l.value).symm
      | _ => rfl

theorem value_join (hl : l.WellFormed) :
    (join op l r).value I ρ = both (op.exact I) (l.value I ρ) (r.value I ρ) := by
  rw [value, tree, treeAs, exact_binary, exact_treeAs hl]
  rfl

theorem value_signed (h : (signed op p).WellFormed) :
    (signed op p).value I ρ = both (op.exact I) (some 0) (p.value I ρ) := by
  rw [← exact_treeAs h false]
  cases p with
  | literal l =>
    rw [treeAs, if_neg (by decide), exact_binary, exact_zero]
    rfl
  | name | group | apply | signed | join =>
    rw [treeAs, exact_binary, exact_zero]
    · rfl
    · intro l h
      cases h

/-! ### The parts -/

theorem rank_of_isSign (h : op.isSign = true) : op.rank = 6 := by
  cases op with
  | plus | minus => rfl
  | _ => cases h

theorem ne_log_of_isSign (h : op.isSign = true) : op ≠ .log := by
  rintro rfl
  cases h

theorem isSign_signProduct (op o : Binary) : (signProduct op o).isSign = true := by
  unfold signProduct
  split <;> rfl

theorem both_assoc_plus {o : Binary} (ho : o.isSign = true) (a b c : Option ℚ) :
    both (o.exact I) (both (Binary.plus.exact I) a b) c =
      both (Binary.plus.exact I) a (both (o.exact I) b c) := by
  cases a with
  | none => rfl
  | some x =>
    cases b with
    | none => rfl
    | some y =>
      cases c with
      | none => cases o <;> rfl
      | some z =>
        cases o with
        | plus => exact congrArg some (add_assoc x y z)
        | minus => exact congrArg some (add_sub_assoc x y z)
        | _ => cases ho

theorem both_signProduct {o : Binary} (hop : op.isSign = true) (ho : o.isSign = true)
    (a b : Option ℚ) :
    both ((signProduct op o).exact I) a b =
      both (op.exact I) a (both (o.exact I) (some 0) b) := by
  cases a with
  | none => rfl
  | some x =>
    cases b with
    | none => rfl
    | some y =>
      cases op with
      | plus =>
        cases o with
        | plus => exact congrArg some (by ring)
        | minus => exact congrArg some (by ring)
        | _ => cases ho
      | minus =>
        cases o with
        | plus => exact congrArg some (by ring)
        | minus => exact congrArg some (by ring)
        | _ => cases ho
      | _ => cases hop

/-- A sum with a sum as its right operand is one long sum. -/
theorem add_spec (hop : op.isSign = true) (hl : l.WellFormed) (hlr : l.outerRank ≤ 6)
    (hr : r.WellFormed) (hrank : r.rank ≤ 6) (hminus : op = .minus → r.rank < 6) :
    (add op l r).WellFormed ∧ (add op l r).outerRank = 6 ∧
      ∀ I ρ, (add op l r).value I ρ = both (op.exact I) (l.value I ρ) (r.value I ρ) := by
  have hplain : ∀ {op : Binary} {r : Phrase}, op.isSign = true → r.WellFormed → r.rank < 6 →
      (join op l r).WellFormed ∧ (join op l r).outerRank = 6 ∧
        ∀ I ρ, (join op l r).value I ρ = both (op.exact I) (l.value I ρ) (r.value I ρ) := by
    intro op r hop hr hrank
    have hsix := rank_of_isSign hop
    refine ⟨.join hl hr ?_ ?_ fun h => absurd h (ne_log_of_isSign hop), hsix,
      fun I ρ => value_join hl⟩
    · rwa [hsix]
    · rwa [hsix]
  induction hr with
  | literal l' => exact hplain hop (.literal l') (Nat.zero_lt_succ 5)
  | name x => exact hplain hop (.name x) (Nat.zero_lt_succ 5)
  | group hp => exact hplain hop (.group hp) (Nat.zero_lt_succ 5)
  | apply hp => exact hplain hop (.apply hp) (Nat.zero_lt_succ 5)
  | @signed o p ho hp hpr ih =>
    have hsigned : (signed o p).WellFormed := .signed ho hp hpr
    rw [rank_of_isSign ho] at hpr
    obtain ⟨hwf, houter, -⟩ := hplain (isSign_signProduct op o) hp hpr
    refine ⟨hwf, houter, fun I ρ => ?_⟩
    rw [add, value_join hl, value_signed hsigned]
    exact both_signProduct hop ho _ _
  | @join o p q hp hq hpr hqr hlog ihp ihq =>
    rw [add]
    by_cases ho : o.isSign = true
    · have hplus : op = .plus := by
        cases op with
        | plus => rfl
        | minus =>
          have := hminus rfl
          rw [rank, rank_of_isSign ho] at this
          exact absurd this (by decide)
        | _ => cases hop
      subst hplus
      rw [rank_of_isSign ho] at hpr
      obtain ⟨hwf, houter, hvalue⟩ :=
        ihp ((rank_le_outerRank hp).trans hpr) fun h => by cases h
      rw [if_pos ho]
      refine ⟨.join hwf hq ?_ hqr fun h => absurd h (ne_log_of_isSign ho), rank_of_isSign ho,
        fun I ρ => ?_⟩
      · rw [houter, rank_of_isSign ho]
      · rw [value_join hwf, hvalue, value_join hp, both_assoc_plus ho]
    · rw [if_neg ho]
      refine hplain hop (.join hp hq hpr hqr hlog) ?_
      rw [rank] at hrank ⊢
      cases o <;> first | decide | (exact absurd rfl ho) | (revert hrank; decide)

/-! ### Products -/

theorem both_assoc_times (a b c : Option ℚ) :
    both (Binary.times.exact I) (both (Binary.times.exact I) a b) c =
      both (Binary.times.exact I) a (both (Binary.times.exact I) b c) := by
  cases a with
  | none => rfl
  | some x =>
    cases b with
    | none => rfl
    | some y =>
      cases c with
      | none => rfl
      | some z => exact congrArg some (mul_assoc x y z)

/-- A sign may stand in front of the first factor or of the product, and so with quotients and
remainders. -/
theorem both_sign {o : Binary} (ho : o.isSign = true) (hop : op.rank = 4) (a b : Option ℚ) :
    both (op.exact I) (both (o.exact I) (some 0) a) b =
      both (o.exact I) (some 0) (both (op.exact I) a b) := by
  have htrunc : ∀ x : ℚ, (-x).num.tdiv (-x).den = -(x.num.tdiv x.den) := by
    intro x
    rw [Rat.num_neg_eq_neg_num, Rat.den_neg_eq_den, Int.neg_tdiv]
  cases a with
  | none => rfl
  | some x =>
    cases b with
    | none => cases o <;> first | rfl | cases ho
    | some y =>
      cases o with
      | plus =>
        cases op with
        | times | div | modulo => simp [both, Binary.exact]
        | _ => cases hop
      | minus =>
        cases op with
        | times => simp [both, Binary.exact]
        | div => by_cases hy : y = 0 <;> simp [both, Binary.exact, hy, neg_div]
        | modulo =>
          by_cases hy : y = 0
          · simp [both, Binary.exact, hy]
          · simp only [both, Binary.exact, hy, Option.bind_eq_bind, Option.bind_some, ↓reduceIte,
              zero_sub, neg_div, htrunc]
            push_cast
            congr 1
            ring
        | _ => cases hop
      | _ => cases ho

/-- A product, quotient or remainder whose right operand binds tighter. -/
theorem join_spec (op : Binary) (hop : op.rank = 4) (hl : l.WellFormed) (hlr : l.outerRank ≤ 4)
    (hr : r.WellFormed) (hrank : r.rank < 4) :
    (join op l r).WellFormed ∧ (join op l r).outerRank = 4 ∧
      ∀ I ρ, (join op l r).value I ρ = both (op.exact I) (l.value I ρ) (r.value I ρ) := by
  refine ⟨.join hl hr ?_ ?_ ?_, hop, fun I ρ => value_join hl⟩
  · rwa [hop]
  · rwa [hop]
  · rintro rfl
    cases hop

/-- A sign may stand in front of what binds tighter than it. -/
theorem wellFormed_signed (ho : o.isSign = true) (hp : p.WellFormed) (hrank : p.rank < 6) :
    (signed o p).WellFormed := by
  refine .signed ho hp ?_
  rwa [rank_of_isSign ho]

theorem isProduct_of_isFactors (h : p.isFactors = true) : p.isProduct = true := by
  cases p with
  | signed => cases h
  | literal | name | group | apply | join => exact h

theorem multiplySigned_spec (ho : o.isSign = true) (hl : l.WellFormed) (hlr : l.outerRank ≤ 4)
    (hp : p.WellFormed) (hfactors : p.isFactors = true) :
    (multiplySigned o l p).WellFormed ∧ (multiplySigned o l p).outerRank = 4 ∧
      ∀ I ρ, (multiplySigned o l p).value I ρ =
        both (Binary.times.exact I) (l.value I ρ) ((signed o p).value I ρ) := by
  have hplain := fun {p : Phrase} (hp : p.WellFormed) (hrank : p.rank < 4) =>
    have hsigned := wellFormed_signed ho hp (hrank.trans (by decide))
    join_spec .times rfl hl hlr hsigned hrank
  induction hp with
  | literal l' => exact hplain (.literal l') (Nat.zero_lt_succ 3)
  | name x => exact hplain (.name x) (Nat.zero_lt_succ 3)
  | group hp => exact hplain (.group hp) (Nat.zero_lt_succ 3)
  | apply hp => exact hplain (.apply hp) (Nat.zero_lt_succ 3)
  | signed => cases hfactors
  | @join op p q hp hq hpr hqr hlog ihp ihq =>
    rw [multiplySigned]
    rw [isFactors] at hfactors
    by_cases hop : op = .times
    · subst hop
      rw [if_pos rfl] at hfactors ⊢
      obtain ⟨hwf, houter, hvalue⟩ := ihp hfactors
      refine ⟨.join hwf hq houter.le hqr (fun h => by cases h), rfl, fun I ρ => ?_⟩
      have hfirst : p.rank ≤ 4 := (rank_le_outerRank hp).trans hpr
      have hsigned := wellFormed_signed ho hp (hfirst.trans_lt (by decide))
      have hproduct : (join .times p q).rank < 6 := Nat.lt_add_of_pos_right Nat.two_pos
      have hsigned' := wellFormed_signed ho (.join hp hq hpr hqr hlog) hproduct
      rw [value_join hwf, hvalue, value_signed hsigned, value_signed hsigned', value_join hp,
        both_assoc_times, both_sign ho rfl]
    · rw [if_neg hop] at hfactors ⊢
      exact hplain (.join hp hq hpr hqr hlog) (of_decide_eq_true hfactors)

/-- A product with a product as its right operand is one long product. -/
theorem multiply_spec (hl : l.WellFormed) (hlr : l.outerRank ≤ 4) (hr : r.WellFormed)
    (hproduct : r.isProduct = true) :
    (multiply l r).WellFormed ∧ (multiply l r).outerRank = 4 ∧
      ∀ I ρ, (multiply l r).value I ρ =
        both (Binary.times.exact I) (l.value I ρ) (r.value I ρ) := by
  have hplain := fun {r : Phrase} (hr : r.WellFormed) (hrank : r.rank < 4) =>
    join_spec .times rfl hl hlr hr hrank
  induction hr with
  | literal l' => exact hplain (.literal l') (Nat.zero_lt_succ 3)
  | name x => exact hplain (.name x) (Nat.zero_lt_succ 3)
  | group hp => exact hplain (.group hp) (Nat.zero_lt_succ 3)
  | apply hp => exact hplain (.apply hp) (Nat.zero_lt_succ 3)
  | signed ho hp hpr => exact multiplySigned_spec ho hl hlr hp hproduct
  | @join op p q hp hq hpr hqr hlog ihp ihq =>
    rw [multiply]
    have hfactors : (join op p q).isFactors = true := hproduct
    rw [isFactors] at hfactors
    by_cases hop : op = .times
    · subst hop
      rw [if_pos rfl] at hfactors ⊢
      obtain ⟨hwf, houter, hvalue⟩ := ihp (isProduct_of_isFactors hfactors)
      refine ⟨.join hwf hq houter.le hqr (fun h => by cases h), rfl, fun I ρ => ?_⟩
      rw [value_join hwf, hvalue, value_join hp, both_assoc_times]
    · rw [if_neg hop] at hfactors ⊢
      exact hplain (.join hp hq hpr hqr hlog) (of_decide_eq_true hfactors)

theorem isFactors_multiplySigned (o : Binary) (h : l.isFactors = true) :
    (multiplySigned o l p).isFactors = true := by
  induction p with
  | literal | name | group | apply | signed => exact h
  | join op p q ihp ihq =>
    rw [multiplySigned]
    split
    · exact ihp
    · exact h

theorem isFactors_multiply (h : l.isFactors = true) : (multiply l r).isFactors = true := by
  induction r with
  | literal | name | group | apply => exact h
  | signed o p => exact isFactors_multiplySigned o h
  | join op p q ihp ihq =>
    rw [multiply]
    split
    · exact ihp
    · exact h

theorem scale_spec (hop : op.rank = 4) (hl : l.WellFormed) (hlr : l.outerRank ≤ 4)
    (hr : r.WellFormed) (hproduct : r.isProduct = true) (hrank : op ≠ .times → r.rank < 4) :
    (scale op l r).WellFormed ∧ (scale op l r).outerRank = 4 ∧
      ∀ I ρ, (scale op l r).value I ρ = both (op.exact I) (l.value I ρ) (r.value I ρ) := by
  unfold scale
  split
  · rename_i h
    subst h
    exact multiply_spec hl hlr hr hproduct
  · rename_i h
    exact join_spec op hop hl hlr hr (hrank h)

theorem isFactors_of_isOperand (h : p.isOperand = true) : p.isFactors = true := by
  cases p with
  | literal | name | group | apply => rfl
  | signed | join => cases h

theorem outerRank_of_isOperand (h : p.isOperand = true) : p.outerRank = 0 := by
  cases p with
  | literal | name | group | apply => rfl
  | signed | join => cases h

theorem isProduct_of_isSimple (h : p.isSimple = true) : p.isProduct = true := by
  cases p with
  | literal | name | group | apply => rfl
  | signed o p => exact isFactors_of_isOperand h
  | join => cases h

theorem rank_of_isSimple (h : p.isSimple = true) : p.rank = 0 := by
  cases p with
  | literal | name | group | apply => rfl
  | signed o p =>
    cases p with
    | literal | name | group | apply => rfl
    | signed | join => cases h
  | join => cases h

theorem outerRank_of_isSimple (hp : p.WellFormed) (h : p.isSimple = true) : p.outerRank ≤ 6 := by
  cases hp with
  | literal | name | group | apply => exact Nat.zero_le 6
  | signed ho _ _ => exact (rank_of_isSign ho).le
  | join => cases h

/-- The sign of the left operand stands in front of the product, quotient or remainder. -/
theorem outward_spec (hop : op.rank = 4) (hl : l.WellFormed) (hsimple : l.isSimple = true)
    (hr : r.WellFormed) (hproduct : r.isProduct = true) (hrank : op ≠ .times → r.rank < 4) :
    (outward op l r).WellFormed ∧ (outward op l r).rank ≤ 4 ∧ (outward op l r).outerRank ≤ 6 ∧
      (op = .times → (outward op l r).isProduct = true) ∧
      ∀ I ρ, (outward op l r).value I ρ = both (op.exact I) (l.value I ρ) (r.value I ρ) := by
  have hfactors : ∀ {p : Phrase}, p.isOperand = true → op = .times →
      (scale op p r).isFactors = true := by
    intro p hp h
    rw [scale, if_pos h]
    exact isFactors_multiply (isFactors_of_isOperand hp)
  have hplain : ∀ {p : Phrase}, p.WellFormed → p.isOperand = true →
      (scale op p r).WellFormed ∧ (scale op p r).outerRank = 4 ∧
        ∀ I ρ, (scale op p r).value I ρ = both (op.exact I) (p.value I ρ) (r.value I ρ) := by
    intro p hp h
    refine scale_spec hop hp ?_ hr hproduct hrank
    rw [outerRank_of_isOperand h]
    exact Nat.zero_le 4
  have hdone : ∀ {p : Phrase}, p.WellFormed → p.isOperand = true → outward op p r = scale op p r →
      (outward op p r).WellFormed ∧ (outward op p r).rank ≤ 4 ∧ (outward op p r).outerRank ≤ 6 ∧
        (op = .times → (outward op p r).isProduct = true) ∧
        ∀ I ρ, (outward op p r).value I ρ = both (op.exact I) (p.value I ρ) (r.value I ρ) := by
    intro p hp h heq
    obtain ⟨hwf, houter, hvalue⟩ := hplain hp h
    rw [heq]
    exact ⟨hwf, houter ▸ rank_le_outerRank hwf, houter.le.trans (by decide),
      fun hop => isProduct_of_isFactors (hfactors h hop), hvalue⟩
  cases hl with
  | literal l' => exact hdone (.literal l') rfl rfl
  | name x => exact hdone (.name x) rfl rfl
  | group hp => exact hdone (.group hp) rfl rfl
  | apply hp => exact hdone (.apply hp) rfl rfl
  | join => cases hsimple
  | @signed o p ho hp hpr =>
    obtain ⟨hwf, houter, hvalue⟩ := hplain hp hsimple
    have hrank : (scale op p r).rank ≤ 4 := houter ▸ rank_le_outerRank hwf
    have hsigned := wellFormed_signed ho hwf (hrank.trans_lt (by decide))
    refine ⟨hsigned, hrank, (rank_of_isSign ho).le, hfactors hsimple, fun I ρ => ?_⟩
    rw [outward, value_signed hsigned, hvalue, value_signed (.signed ho hp hpr), both_sign ho hop]

end

/-! ### Texts -/

/-- The text of a sign and a phrase behind it, with two signs in a row made one. -/
def textAfter (op : Binary) : Phrase → List Char
  | join o p q => textAfter op p ++ (o.symbol ++ q.text)
  | signed o p => (signProduct op o).symbol ++ p.text
  | p => op.symbol ++ p.text

section
variable {op o : Binary} {l p r : Phrase}

theorem textAfter_of_outerRank (op : Binary) (h : p.WellFormed) (hrank : p.outerRank < 6) :
    textAfter op p = op.symbol ++ p.text := by
  induction h with
  | literal | name | group | apply => rfl
  | signed ho =>
    rw [outerRank, rank_of_isSign ho] at hrank
    exact absurd hrank (by decide)
  | join hp hq hpr hqr hlog ihp ihq =>
    rw [textAfter, ihp (hpr.trans_lt hrank), text, List.append_assoc]

/-- A way of writing phrases that only does something of its own where a phrase begins. -/
structure IsWriting (f : Phrase → List Char) : Prop where
  join : ∀ o p q, f (join o p q) = f p ++ (o.symbol ++ q.text)
  signed : ∃ g : Binary → List Char, ∀ o p, f (signed o p) = g o ++ p.text

theorem isWriting_text : IsWriting text :=
  ⟨fun _ _ _ => rfl, Binary.symbol, fun _ _ => rfl⟩

theorem isWriting_textAfter (op : Binary) : IsWriting (textAfter op) :=
  ⟨fun _ _ _ => rfl, fun o => (signProduct op o).symbol, fun _ _ => rfl⟩

namespace IsWriting
variable {f : Phrase → List Char}

theorem add (hf : IsWriting f) (op : Binary) (l : Phrase) (hr : r.WellFormed) (hrank : r.rank ≤ 6) :
    f (add op l r) = f l ++ textAfter op r := by
  induction hr with
  | literal | name | group | apply | signed => exact hf.join ..
  | @join o p q hp hq hpr hqr hlog ihp ihq =>
    rw [Phrase.add]
    split
    · rename_i ho
      rw [rank_of_isSign ho] at hpr
      rw [hf.join, ihp ((rank_le_outerRank hp).trans hpr), textAfter, List.append_assoc]
    · rename_i ho
      have hlt : p.outerRank < 6 := by
        refine hpr.trans_lt ?_
        rw [rank] at hrank
        cases o <;> first | decide | (exact absurd rfl ho) | (revert hrank; decide)
      rw [hf.join, textAfter, textAfter_of_outerRank op hp hlt, text, List.append_assoc]

theorem multiplySigned (hf : IsWriting f) (o : Binary) (l p : Phrase) :
    f (multiplySigned o l p) = f l ++ (Binary.times.symbol ++ (o.symbol ++ p.text)) := by
  induction p with
  | literal | name | group | apply | signed => exact hf.join ..
  | join op p q ihp ihq =>
    rw [Phrase.multiplySigned]
    split
    · rename_i hop
      rw [hf.join, ihp, hop]
      simp [text]
    · exact hf.join ..

theorem multiply (hf : IsWriting f) (l r : Phrase) :
    f (multiply l r) = f l ++ (Binary.times.symbol ++ r.text) := by
  induction r with
  | literal | name | group | apply => exact hf.join ..
  | signed o p => exact hf.multiplySigned o l p
  | join op p q ihp ihq =>
    rw [Phrase.multiply]
    split
    · rename_i hop
      rw [hf.join, ihp, hop]
      simp [text]
    · exact hf.join ..

theorem scale (hf : IsWriting f) (op : Binary) (l r : Phrase) :
    f (scale op l r) = f l ++ (op.symbol ++ r.text) := by
  rw [Phrase.scale]
  split
  · rename_i hop
    rw [hf.multiply, hop]
  · exact hf.join ..

theorem outward (hf : IsWriting f) (op : Binary) (l r : Phrase) :
    f (outward op l r) = f l ++ (op.symbol ++ r.text) := by
  cases l with
  | literal | name | group | apply | join => exact hf.scale ..
  | signed o p =>
    obtain ⟨g, hg⟩ := hf.signed
    rw [Phrase.outward, hg, hg, isWriting_text.scale, List.append_assoc]

end IsWriting

end

end Phrase

/-! ### Characters -/

def isSignChar (c : Char) : Bool :=
  c = '+' || c = '-'

theorem collapseSigns_cons {c : Char} (hc : isSignChar c = false) (s : List Char) :
    collapseSigns (c :: s) = c :: collapseSigns s := by
  rw [collapseSigns]
  all_goals
    rintro t h
    cases h
    cases hc

theorem collapseSigns_append {s : List Char} (hs : ∀ c ∈ s, isSignChar c = false)
    (rest : List Char) : collapseSigns (s ++ rest) = s ++ collapseSigns rest := by
  induction s with
  | nil => rfl
  | cons c s ih =>
    rw [List.cons_append, collapseSigns_cons (hs c (List.mem_cons_self ..)),
      ih fun d hd => hs d (List.mem_cons_of_mem c hd), List.cons_append]

/-- A single sign stays. -/
theorem collapseSigns_sign {op : Binary} (hop : op.isSign = true) {c : Char}
    (hc : isSignChar c = false) (s : List Char) :
    collapseSigns (op.symbol ++ c :: s) = op.symbol ++ collapseSigns (c :: s) := by
  have hsingle : ∀ d : Char, collapseSigns (d :: c :: s) = d :: collapseSigns (c :: s) := by
    intro d
    rw [collapseSigns]
    all_goals
      rintro t - h
      cases h
      cases hc
  cases op with
  | plus | minus => exact hsingle _
  | _ => cases hop

theorem collapseSigns_signs {op o : Binary} (hop : op.isSign = true) (ho : o.isSign = true)
    (s : List Char) :
    collapseSigns (op.symbol ++ (o.symbol ++ s)) =
      (signProduct op o).symbol ++ collapseSigns s := by
  cases op with
  | plus | minus =>
    cases o with
    | plus | minus => rfl
    | _ => cases ho
  | _ => cases hop

end Reckon.Formula
