import Reckon.Proofs.AngleUnits
import Reckon.Proofs.Foreseen
import Reckon.Proofs.Validated

/-!
# Flat chains

A chain of operands is evaluated one level below its tree, however long it is: the levels that an
evaluation needs are the `nesting` of the tree (`failsOnly_valueLevels`). So a formula of numbers
and names joined by operators of one rank is never too deep to be evaluated (`evaluate_flat`).
-/

namespace Reckon

open Reckon.Text

/-! ### Levels of an evaluation -/

theorem Failure.IsNumeric.ne_tooDeep {f : Failure} (h : f.IsNumeric) : f ≠ .tooDeep := by
  rintro rfl
  exact h

namespace Tree

/-- How many levels a tree has if the operands of a chain of operators lie on one level. -/
def nesting : Tree → Nat
  | number _ | var _ => 1
  | unary _ a => a.nesting + 1
  | binary _ l r => max (if l.isBinary then l.nesting else l.nesting + 1) (r.nesting + 1)

/-- A variable that is bound to a number, or to nothing, has its value at once. -/
theorem failsOnly_resolve {b : Bindings} (hb : b.IsNumeric) (resolving : List String)
    (follow : List Char → Except Failure Decimal) (x : String) :
    FailsOnly (· ≠ .tooDeep) (resolve b resolving follow x) := by
  -- no text is followed, so any value will do
  rw [hb.resolve_congr resolving follow fun _ => .ok .zero]
  unfold resolve
  split
  · exact failsOnly_ok _
  split
  · simp
  split
  · simp
  split
  · rename_i hcontent
    simp [Bound.eq_integerTooLong_of_content hcontent]
  · exact failsOnly_ok _
  simp only
  split
  · split
    · exact failsOnly_ok _
    · simp
  · exact failsOnly_ok _

theorem failsOnly_chainValue [Binary64.Library] {below : Tree → Except Failure Decimal}
    {levels : Nat}
    (hbelow : ∀ t : Tree, t.nesting ≤ levels → FailsOnly (· ≠ .tooDeep) (below t)) {t : Tree}
    (ht : (if t.isBinary then t.nesting else t.nesting + 1) ≤ levels + 1) :
    FailsOnly (· ≠ .tooDeep) (chainValue below t) := by
  induction t with
  | number | var | unary => exact hbelow _ (Nat.le_of_succ_le_succ ht)
  | binary op l r ihl _ =>
    rw [isBinary, if_pos rfl, nesting] at ht
    obtain ⟨hl, hr⟩ := Nat.max_le.mp ht
    rw [chainValue_binary]
    refine (ihl hl).bind fun left => (hbelow r (Nat.le_of_succ_le_succ hr)).bind fun right => ?_
    exact (op.failsOnly_apply left right).mono fun _ => Failure.IsNumeric.ne_tooDeep

/-- An evaluation of as many levels as the tree has does not run out of them. -/
theorem failsOnly_valueLevels [Binary64.Library] (unit : AngleUnit) {b : Bindings}
    (hb : b.IsNumeric)
    {resolving : List String} {levels : Nat} {t : Tree} (ht : t.nesting ≤ levels) :
    FailsOnly (· ≠ .tooDeep) (valueLevels Formula.readFormula unit b levels resolving t) := by
  induction levels generalizing t with
  | zero => cases t <;> simp [nesting] at ht
  | succ levels ih =>
    cases t with
    | number a => exact failsOnly_ok a
    | var x =>
      rw [valueLevels_var]
      exact failsOnly_resolve hb _ _ _
    | unary op a =>
      rw [valueLevels_unary]
      refine (ih (Nat.le_of_succ_le_succ ht)).bind fun value => ?_
      exact (op.failsOnly_apply unit value).mono fun _ => Failure.IsNumeric.ne_tooDeep
    | binary op l r =>
      rw [valueLevels_binary]
      exact failsOnly_chainValue (fun t ht => ih ht) ht

end Tree

/-! ### Reading -/

namespace Formula.Phrase

/-- A number or a name. -/
def isLeaf : Phrase → Bool
  | literal _ | name _ => true
  | _ => false

/-- Leaves joined from left to right by operators of one rank. -/
inductive IsFlat (rank : Nat) : Phrase → Prop
  | leaf {p : Phrase} (hp : p.isLeaf = true) : IsFlat rank p
  | join {op : Binary} {l r : Phrase} (hop : op.rank = rank) (hl : IsFlat rank l)
    (hr : r.isLeaf = true) : IsFlat rank (join op l r)

variable {p : Phrase} {rank levels : Nat}

theorem wellFormed_of_isLeaf (hp : p.isLeaf = true) : p.WellFormed := by
  cases p with
  | literal l => exact .literal l
  | name x => exact .name x
  | _ => cases hp

theorem rank_of_isLeaf (hp : p.isLeaf = true) : p.rank = 0 := by
  cases p with
  | literal | name => rfl
  | _ => cases hp

theorem nesting_of_isLeaf (hp : p.isLeaf = true) (alone : Bool) :
    (p.treeAs alone).nesting = 1 := by
  cases p with
  | literal | name => rfl
  | _ => cases hp

namespace IsFlat

theorem outerRank_le (h : p.IsFlat rank) : p.outerRank ≤ rank := by
  cases h with
  | @leaf p hp =>
    cases p with
    | literal | name => exact Nat.zero_le _
    | _ => cases hp
  | join hop => exact hop.le

theorem wellFormed (h : p.IsFlat rank) (hplain : p.IsPlain) : p.WellFormed := by
  induction h with
  | leaf hp => exact wellFormed_of_isLeaf hp
  | @join op l r hop hl hr ih =>
    have hpositive : 0 < op.rank := (by decide : 0 < 3).trans_le (three_le_rank op)
    refine .join (ih hplain.2.1) (wellFormed_of_isLeaf hr) ?_ ?_ fun hlog => ?_
    · rw [hop]
      exact hl.outerRank_le
    · rwa [rank_of_isLeaf hr]
    · exact absurd hlog hplain.1

/-- The operands of a flat chain lie one level below it. -/
theorem levels_le (h : p.IsFlat rank) : p.levels ≤ 1 := by
  have hleaf {q : Phrase} (hq : q.isLeaf = true) : q.levels = 0 ∧ q.isAtom = true := by
    cases q with
    | literal | name => exact ⟨rfl, rfl⟩
    | _ => cases hq
  induction h with
  | leaf hp => exact (hleaf hp).1.le.trans zero_le_one
  | @join op l r hop hl hr ih =>
    rw [levels, (hleaf hr).1]
    refine max_le ?_ le_rfl
    cases hl with
    | leaf hl => rw [if_pos (hleaf hl).2, (hleaf hl).1]
    | join => exact ih

/-- The tree of a flat chain has two levels at most. -/
theorem nesting_treeAs_le (h : p.IsFlat rank) (alone : Bool) : (p.treeAs alone).nesting ≤ 2 := by
  induction h generalizing alone with
  | @leaf p hp => exact (nesting_of_isLeaf hp alone).le.trans (by decide)
  | @join op l r hop hl hr ih =>
    rw [treeAs, Tree.nesting, nesting_of_isLeaf hr]
    refine Nat.max_le.mpr ⟨?_, le_rfl⟩
    cases hl with
    | leaf hl =>
      split
      · exact ih false
      · rw [nesting_of_isLeaf hl]
    | join => exact ih false

end IsFlat

end Formula.Phrase

/-- A flat chain whose names are bound to numbers is read and is not too deep to be evaluated. -/
theorem Formula.evaluate_flat [Binary64.Library] (unit : AngleUnit) {bindings : Bindings}
    (hb : bindings.IsNumeric) {p : Phrase} {rank : Nat} (hflat : p.IsFlat rank) (hplain : p.IsPlain)
    (hlength : p.text.length ≤ maxLength) :
    readFormula p.text = .ok p.tree ∧ evaluate unit bindings p.text ≠ .error .tooDeep := by
  have hwell := hflat.wellFormed hplain
  have hread : readFormula p.text = .ok p.tree := by
    rw [readFormula, Phrase.prepare_text hwell hplain hlength]
    change validate p.text >>= (fun _ => read p.text) = _
    rw [Phrase.validate_text hwell hplain]
    exact Phrase.readLevels_text_of_lt hwell (hflat.levels_le.trans_lt (by decide))
  have hnesting : p.tree.nesting ≤ maxDepth + 1 :=
    (hflat.nesting_treeAs_le true).trans (by decide)
  have hnumeric : bindings.normalized.IsNumeric :=
    Bindings.forall_mem_normalized (P := fun bound => bound.isNumeric = true) hb
  refine ⟨hread, fun hdeep => ?_⟩
  rw [evaluate_of_read hread] at hdeep
  exact Tree.failsOnly_valueLevels unit hnumeric hnesting _ hdeep rfl

/-- A difference of three numbers and names. -/
theorem Formula.evaluate_flat_difference :
    let two : Literal := ⟨['2'], .finite false 2 0, by decide, by decide +kernel⟩
    let x : Name := ⟨['x'], by decide, by decide +kernel⟩
    let p : Phrase := .join .plus (.join .minus (.name x) (.literal two)) (.name x)
    let bindings : Bindings := [("x", .text ['5'])]
    p.text = ['x', '-', '2', '+', 'x'] ∧ bindings.IsNumeric ∧ p.IsPlain ∧
      evaluate .rad bindings p.text ≠ .error .tooDeep := by
  intro two x p bindings
  have hb : bindings.IsNumeric := by decide +kernel
  have hneat : IsNeat x.chars := ⟨['x'], [], rfl, by simp, by decide, by simp⟩
  have htwo : ∀ c ∈ two.chars, isNumeral c = true := by decide
  have hplain : p.IsPlain := ⟨by decide, ⟨by decide, hneat, htwo⟩, hneat⟩
  have hflat : p.IsFlat 6 := .join rfl (.join rfl (.leaf rfl) rfl) rfl
  exact ⟨rfl, hb, hplain, (evaluate_flat .rad hb hflat hplain (by decide)).2⟩

end Reckon
