import Reckon.Proofs.NormalRules
import Reckon.Proofs.Weights

/-!
# Rules and weights

Every rule asks for operations of a smaller measure only and builds a light tree.
-/

namespace Reckon.Simplify

open Reckon.Tree (number var unary binary)

variable {p q r s t x a b : Tree} {c d : Decimal} {m : Nat}

namespace Lightens

/-! ### Sums -/

theorem signedSum (h : 4 * (t.weight + 1) < m) : Lightens m (signedSum c t) (t.weight + 1) := by
  refine (Descends.signal (Decimal.zero.atMost c)).bind fun atMost _ => ?_
  cases atMost with
  | true => exact (of_number (kept c)).bind fun _ hs => (sign rfl (by grind)).le (by grind)
  | false => exact (of_number (negated c)).bind fun _ hs => (sign rfl (by grind)).le (by grind)

theorem sumWithNumber : Lightens (4 * (t.weight + 1)) (sumWithNumber t c) (t.weight + 1) := by
  fun_cases Simplify.sumWithNumber t c with
  | case1 d x => exact ⟨trivial, fun v _ => (signedSum (by grind)).le (by grind)⟩
  | case2 x d => exact ⟨trivial, fun v _ => (signedSum (by grind)).le (by grind)⟩
  | case3 d x =>
    exact (of_number (rounded _)).bind fun _ hs => (sign rfl (by grind)).le (by grind)
  | case4 x d => exact ⟨trivial, fun v _ => (signedSum (by grind)).le (by grind)⟩
  | case5 => exact le_rfl

theorem sumWithVariable (hx : x.weight = 1) :
    Lightens (4 * (t.weight + 1)) (sumWithVariable t x) (t.weight + 1) := by
  have hplain : (binary .plus t x).weight ≤ t.weight + 1 := by grind
  fun_cases Simplify.sumWithVariable t x with
  | case1 p q => exact (twice (by grind)).bind fun _ hs => (sign rfl (by grind)).le (by grind)
  | case2 p q => exact (twice (by grind)).bind fun _ hs => (sign rfl (by grind)).le (by grind)
  | case3 => exact hplain
  | case4 p q => exact (twice (by grind)).bind fun _ hs => (sign rfl (by grind)).le (by grind)
  | case5 p q => exact done (by grind)
  | case6 => exact hplain
  | case7 c y => exact (oneMore (by grind)).le (by grind)
  | case8 => exact hplain
  | case9 y c => exact (oneMore (by grind)).le (by grind)
  | case10 => exact hplain
  | case11 => exact hplain

theorem sumWithAtom (hx : x.weight = 1) :
    Lightens (4 * (t.weight + 1)) (sumWithAtom t x) (t.weight + 1) := by
  fun_cases Simplify.sumWithAtom t x with
  | case1 c => exact sumWithNumber
  | case2 => exact sumWithVariable hx

theorem sumOfSums :
    Lightens (4 * (p.weight + q.weight + (r.weight + s.weight))) (sumOfSums p q r s)
      (p.weight + q.weight + (r.weight + s.weight)) := by
  fun_cases Simplify.sumOfSums p q r s with
  | case1 =>
    exact (twice (by grind)).bind fun _ h => (sign rfl (by grind)).bind fun _ h' =>
      (sign rfl (by grind)).le (by grind)
  | case2 =>
    exact (twice (by grind)).bind fun _ h => (sign rfl (by grind)).bind fun _ h' =>
      (sign rfl (by grind)).le (by grind)
  | case3 =>
    exact (twice (by grind)).bind fun _ h => (sign rfl (by grind)).bind fun _ h' =>
      (sign rfl (by grind)).le (by grind)
  | case4 =>
    exact (twice (by grind)).bind fun _ h => (sign rfl (by grind)).bind fun _ h' =>
      (sign rfl (by grind)).le (by grind)
  | case5 => exact le_rfl

theorem sumWithDifference :
    Lightens (4 * (p.weight + q.weight + (r.weight + s.weight))) (sumWithDifference p q r s)
      (p.weight + q.weight + (r.weight + s.weight)) := by
  fun_cases Simplify.sumWithDifference p q r s with
  | case1 =>
    exact (twice (by grind)).bind fun _ h => (sign rfl (by grind)).bind fun _ h' =>
      (sign rfl (by grind)).le (by grind)
  | case2 => exact (sign rfl (by grind)).le (by grind)
  | case3 =>
    exact (twice (by grind)).bind fun _ h => (sign rfl (by grind)).bind fun _ h' =>
      (sign rfl (by grind)).le (by grind)
  | case4 => exact (sign rfl (by grind)).le (by grind)
  | case5 => exact le_rfl

theorem sumOfDifferences :
    Lightens (4 * (p.weight + q.weight + (r.weight + s.weight))) (sumOfDifferences p q r s)
      (p.weight + q.weight + (r.weight + s.weight)) := by
  fun_cases Simplify.sumOfDifferences p q r s with
  | case1 =>
    exact (twice (by grind)).bind fun _ h => (sign rfl (by grind)).bind fun _ h' =>
      (sign rfl (by grind)).le (by grind)
  | case2 => exact (sign rfl (by grind)).le (by grind)
  | case3 => exact (sign rfl (by grind)).le (by grind)
  | case4 =>
    exact (sign rfl (by grind)).bind fun _ h => (twice (by grind)).bind fun _ h' =>
      (sign rfl (by grind)).le (by grind)
  | case5 => exact le_rfl

theorem sumOfCompounds :
    Lightens (4 * (a.weight + b.weight)) (sumOfCompounds a b) (a.weight + b.weight) := by
  fun_cases Simplify.sumOfCompounds a b with
  | case1 p q r s => exact sumOfSums
  | case2 p q r s => exact sumWithDifference
  | case3 p q r s =>
    rw [add_comm]
    exact sumWithDifference
  | case4 p q r s => exact sumOfDifferences
  | case5 p q c x =>
    exact (oneMore (by grind)).bind fun _ h => (sign rfl (by grind)).le (by grind)
  | case6 p q c x =>
    exact (oneMore (by grind)).bind fun _ h => (sign rfl (by grind)).le (by grind)
  | case7 => exact le_rfl
  | case8 p q x c =>
    exact (oneMore (by grind)).bind fun _ h => (sign rfl (by grind)).le (by grind)
  | case9 p q x c =>
    exact (oneMore (by grind)).bind fun _ h => (sign rfl (by grind)).le (by grind)
  | case10 => exact le_rfl
  | case11 p q c x =>
    exact (oneMore (by grind)).bind fun _ h => (sign rfl (by grind)).le (by grind)
  | case12 p q c x =>
    exact (oneLess (by grind)).bind fun _ h => (sign rfl (by grind)).le (by grind)
  | case13 => exact le_rfl
  | case14 p q x c =>
    exact (oneMore (by grind)).bind fun _ h => (sign rfl (by grind)).le (by grind)
  | case15 p q x c =>
    exact (oneLess (by grind)).bind fun _ h => (sign rfl (by grind)).le (by grind)
  | case16 => exact le_rfl
  | case17 => exact le_rfl

theorem sum : Lightens (measure .plus a b) (sum a b) (cost .plus a b) := by
  by_cases hnumbers : ∀ c d, a = number c → b = number d → False
  · rw [measure_sign rfl hnumbers, cost_sign rfl hnumbers]
    fun_cases Simplify.sum a b with
    | case1 c d => exact absurd rfl (hnumbers c d rfl)
    | case2 => exact done (by grind)
    | case3 => exact done (by grind)
    | case4 => exact (twice (by grind)).le (by grind)
    | case5 => exact sumOfCompounds
    | case6 =>
      have hb : b.weight = 1 := Tree.weight_of_not_isCompound ‹_›
      rw [hb]
      exact sumWithAtom hb
    | case7 =>
      have ha : a.weight = 1 := Tree.weight_of_not_isCompound ‹_›
      rw [ha, add_comm]
      exact sumWithAtom ha
    | case8 => exact le_rfl
  · push Not at hnumbers
    obtain ⟨c, d, rfl, rfl, -⟩ := hnumbers
    exact of_number (rounded _)

/-! ### Differences -/

theorem differenceWithNumber :
    Lightens (4 * (t.weight + 1)) (differenceWithNumber t c) (t.weight + 1) := by
  fun_cases Simplify.differenceWithNumber t c with
  | case1 d x =>
    exact (of_number (rounded _)).bind fun _ hs => (sign rfl (by grind)).le (by grind)
  | case2 x d =>
    exact (of_number (rounded _)).bind fun _ hs => (sign rfl (by grind)).le (by grind)
  | case3 d x =>
    exact (of_number (rounded _)).bind fun _ hs => (sign rfl (by grind)).le (by grind)
  | case4 x d =>
    exact (of_number (rounded _)).bind fun _ hs => (sign rfl (by grind)).le (by grind)
  | case5 => exact le_rfl

theorem differenceWithVariable (hx : x.weight = 1) :
    Lightens (4 * (t.weight + 1)) (differenceWithVariable t x) (t.weight + 1) := by
  have hplain : (binary .minus t x).weight ≤ t.weight + 1 := by grind
  fun_cases Simplify.differenceWithVariable t x with
  | case1 p q => exact done (by grind)
  | case2 p q => exact done (by grind)
  | case3 => exact hplain
  | case4 p q => exact (opposite (by grind)).le (by grind)
  | case5 p q => exact (twice (by grind)).bind fun _ hs => (sign rfl (by grind)).le (by grind)
  | case6 => exact hplain
  | case7 c y => exact (oneLess (by grind)).le (by grind)
  | case8 => exact hplain
  | case9 y c => exact (oneLess (by grind)).le (by grind)
  | case10 => exact hplain
  | case11 => exact hplain

theorem differenceWithAtom (hx : x.weight = 1) :
    Lightens (4 * (t.weight + 1)) (differenceWithAtom t x) (t.weight + 1) := by
  fun_cases Simplify.differenceWithAtom t x with
  | case1 c => exact differenceWithNumber
  | case2 => exact differenceWithVariable hx

theorem differenceFromNumber :
    Lightens (4 * (1 + t.weight)) (differenceFromNumber c t) (1 + t.weight) := by
  fun_cases Simplify.differenceFromNumber c t with
  | case1 d x =>
    exact (of_number (rounded _)).bind fun _ hs => (sign rfl (by grind)).le (by grind)
  | case2 x d =>
    exact (of_number (rounded _)).bind fun _ hs => (sign rfl (by grind)).le (by grind)
  | case3 d x =>
    exact (of_number (rounded _)).bind fun _ hs => (sign rfl (by grind)).le (by grind)
  | case4 x d =>
    exact (of_number (rounded _)).bind fun _ hs => (sign rfl (by grind)).le (by grind)
  | case5 => exact le_rfl

theorem differenceFromVariable (hx : x.weight = 1) :
    Lightens (4 * (1 + t.weight)) (differenceFromVariable x t) (1 + t.weight) := by
  have hplain : (binary .minus x t).weight ≤ 1 + t.weight := by grind
  fun_cases Simplify.differenceFromVariable x t with
  | case1 p q => exact (opposite (by grind)).le (by grind)
  | case2 p q => exact (opposite (by grind)).le (by grind)
  | case3 => exact hplain
  | case4 p q => exact done (by grind)
  | case5 p q => exact (twice (by grind)).bind fun _ hs => (sign rfl (by grind)).le (by grind)
  | case6 => exact hplain
  | case7 c y => exact (oneMinus (by grind)).le (by grind)
  | case8 => exact hplain
  | case9 y c => exact (oneMinus (by grind)).le (by grind)
  | case10 => exact hplain
  | case11 => exact hplain

theorem differenceFromAtom (hx : x.weight = 1) :
    Lightens (4 * (1 + t.weight)) (differenceFromAtom x t) (1 + t.weight) := by
  fun_cases Simplify.differenceFromAtom x t with
  | case1 c => exact differenceFromNumber
  | case2 => exact differenceFromVariable hx

theorem differenceOfSums :
    Lightens (4 * (p.weight + q.weight + (r.weight + s.weight))) (differenceOfSums p q r s)
      (p.weight + q.weight + (r.weight + s.weight)) := by
  fun_cases Simplify.differenceOfSums p q r s with
  | case1 => exact (sign rfl (by grind)).le (by grind)
  | case2 => exact (sign rfl (by grind)).le (by grind)
  | case3 => exact (sign rfl (by grind)).le (by grind)
  | case4 => exact (sign rfl (by grind)).le (by grind)
  | case5 => exact le_rfl

theorem sumMinusDifference :
    Lightens (4 * (p.weight + q.weight + (r.weight + s.weight))) (sumMinusDifference p q r s)
      (p.weight + q.weight + (r.weight + s.weight)) := by
  fun_cases Simplify.sumMinusDifference p q r s with
  | case1 => exact (sign rfl (by grind)).le (by grind)
  | case2 =>
    exact (twice (by grind)).bind fun _ h => (sign rfl (by grind)).bind fun _ h' =>
      (sign rfl (by grind)).le (by grind)
  | case3 => exact (sign rfl (by grind)).le (by grind)
  | case4 =>
    exact (twice (by grind)).bind fun _ h => (sign rfl (by grind)).bind fun _ h' =>
      (sign rfl (by grind)).le (by grind)
  | case5 => exact le_rfl

theorem differenceMinusSum :
    Lightens (4 * (p.weight + q.weight + (r.weight + s.weight))) (differenceMinusSum p q r s)
      (p.weight + q.weight + (r.weight + s.weight)) := by
  fun_cases Simplify.differenceMinusSum p q r s with
  | case1 => exact (opposite (by grind)).bind fun _ h => (sign rfl (by grind)).le (by grind)
  | case2 => exact (opposite (by grind)).bind fun _ h => (sign rfl (by grind)).le (by grind)
  | case3 =>
    exact (sign rfl (by grind)).bind fun _ h => (twice (by grind)).bind fun _ h' =>
      (sign rfl (by grind)).le (by grind)
  | case4 =>
    exact (sign rfl (by grind)).bind fun _ h => (twice (by grind)).bind fun _ h' =>
      (sign rfl (by grind)).le (by grind)
  | case5 => exact le_rfl

theorem differenceOfDifferences :
    Lightens (4 * (p.weight + q.weight + (r.weight + s.weight)))
      (differenceOfDifferences p q r s) (p.weight + q.weight + (r.weight + s.weight)) := by
  fun_cases Simplify.differenceOfDifferences p q r s with
  | case1 => exact (sign rfl (by grind)).le (by grind)
  | case2 =>
    exact (twice (by grind)).bind fun _ h => (sign rfl (by grind)).bind fun _ h' =>
      (sign rfl (by grind)).le (by grind)
  | case3 =>
    exact (sign rfl (by grind)).bind fun _ h => (twice (by grind)).bind fun _ h' =>
      (sign rfl (by grind)).le (by grind)
  | case4 => exact (sign rfl (by grind)).le (by grind)
  | case5 => exact le_rfl

theorem differenceOfCompounds :
    Lightens (4 * (a.weight + b.weight)) (differenceOfCompounds a b) (a.weight + b.weight) := by
  fun_cases Simplify.differenceOfCompounds a b with
  | case1 p q r s => exact differenceOfSums
  | case2 p q r s => exact sumMinusDifference
  | case3 p q r s => exact differenceMinusSum
  | case4 p q r s => exact differenceOfDifferences
  | case5 p q c x =>
    exact (oneMinus (by grind)).bind fun _ h => (sign rfl (by grind)).le (by grind)
  | case6 p q c x =>
    exact (oneMinus (by grind)).bind fun _ h => (sign rfl (by grind)).le (by grind)
  | case7 => exact le_rfl
  | case8 p q x c =>
    exact (oneMinus (by grind)).bind fun _ h => (sign rfl (by grind)).le (by grind)
  | case9 p q x c =>
    exact (oneMinus (by grind)).bind fun _ h => (sign rfl (by grind)).le (by grind)
  | case10 => exact le_rfl
  | case11 p q c x =>
    exact (oneMinus (by grind)).bind fun _ h => (sign rfl (by grind)).le (by grind)
  | case12 p q c x =>
    exact (minusOneMinus (by grind)).bind fun _ h => (sign rfl (by grind)).le (by grind)
  | case13 => exact le_rfl
  | case14 p q x c =>
    exact (oneMinus (by grind)).bind fun _ h => (sign rfl (by grind)).le (by grind)
  | case15 p q x c =>
    exact (minusOneMinus (by grind)).bind fun _ h => (sign rfl (by grind)).le (by grind)
  | case16 => exact le_rfl
  | case17 => exact le_rfl

theorem difference : Lightens (measure .minus a b) (difference a b) (cost .minus a b) := by
  by_cases hnumbers : ∀ c d, a = number c → b = number d → False
  · rw [measure_sign rfl hnumbers, cost_sign rfl hnumbers]
    fun_cases Simplify.difference a b with
    | case1 c d => exact absurd rfl (hnumbers c d rfl)
    | case2 => exact (opposite (by grind)).le (by grind)
    | case3 => exact done (by grind)
    | case4 =>
      have ha := a.one_le_weight
      exact done (ha.trans (Nat.le_add_right ..))
    | case5 => exact differenceOfCompounds
    | case6 =>
      have hb : b.weight = 1 := Tree.weight_of_not_isCompound ‹_›
      rw [hb]
      exact differenceWithAtom hb
    | case7 =>
      have ha : a.weight = 1 := Tree.weight_of_not_isCompound ‹_›
      rw [ha]
      exact differenceFromAtom ha
    | case8 => exact le_rfl
  · push Not at hnumbers
    obtain ⟨c, d, rfl, rfl, -⟩ := hnumbers
    exact of_number (rounded _)

/-! ### Products -/

/-- A multiple is multiplied by a number at the cost that it had already. -/
theorem merged (hs : s.isNumber = true)
    (h : 4 * (t.weight + if t.isMultiple then 1 else 0) + 2 < m) :
    Lightens m (Plan.combine .times s t) t.weight := by
  obtain ⟨c, rfl⟩ := Tree.exists_of_isNumber hs
  have hmerged : Tree.areMerged (number c) t = t.isMultiple := by
    simp [Tree.areMerged, Tree.isNumber, Tree.isMultiple]
  refine (combine ?_).le (cost_times_atom rfl t).le
  rw [measure, cost_times_atom rfl, rank, hmerged]
  split_ifs at h ⊢ <;> omega

/-- A factor that is a number. -/
theorem timesNumber (hs : s.isNumber = true) (h : 4 * t.weight + 3 < m) :
    Lightens m (Plan.combine .times s t) t.weight := by
  obtain ⟨c, rfl⟩ := Tree.exists_of_isNumber hs
  exact timesAtom rfl h

theorem productWithNumber :
    Lightens (4 * t.weight + if t.isMultiple then 3 else 2) (productWithNumber t c) t.weight := by
  fun_cases Simplify.productWithNumber t c with
  | case1 p q =>
    refine (Descends.signal (c.less .zero)).bind fun less _ => ?_
    cases less with
    | true =>
      exact (timesAtom rfl (by grind)).bind fun _ h => (negated c).bind fun _ hc =>
        (timesNumber hc (by grind)).bind fun _ h' => (sign rfl (by grind)).le (by grind)
    | false =>
      exact (timesAtom rfl (by grind)).bind fun _ h => (timesAtom rfl (by grind)).bind fun _ h' =>
        (sign rfl (by grind)).le (by grind)
  | case2 p q =>
    refine (Descends.signal (Decimal.zero.less c)).bind fun less _ => ?_
    cases less with
    | true =>
      exact (timesAtom rfl (by grind)).bind fun _ h => (timesAtom rfl (by grind)).bind fun _ h' =>
        (sign rfl (by grind)).le (by grind)
    | false =>
      exact (timesAtom rfl (by grind)).bind fun _ h => (negated c).bind fun _ hc =>
        (timesNumber hc (by grind)).bind fun _ h' => (sign rfl (by grind)).le (by grind)
  | case3 d x =>
    have hmultiple : (binary .times (number d) x).isMultiple = true := rfl
    rw [hmultiple, Tree.weight_number_times]
    exact (rounded _).bind fun _ hs => (merged hs (by grind)).le (by grind)
  | case4 x d =>
    have hmultiple : (binary .times x (number d)).isMultiple = true := by
      simp [Tree.isMultiple, Tree.isNumber]
    rw [hmultiple, Tree.weight_times_number]
    exact (rounded _).bind fun _ hs => (merged hs (by grind)).le (by grind)
  | case5 =>
    rename_i hleft hright
    have hmultiple : ¬ t.isMultiple = true := by
      intro h
      obtain ⟨d, x, rfl | rfl⟩ := Tree.exists_of_isMultiple h
      · exact hleft d x rfl
      · exact hright x d rfl
    refine done ?_
    rw [Tree.weight_number_times, if_neg hmultiple, Nat.add_zero]

theorem productWithVariable {y : String} :
    Lightens (4 * t.weight + 2) (productWithVariable t (var y)) t.weight := by
  have hplain : (binary .times (var y) t).weight ≤ t.weight := Tree.weight_times_var.le
  fun_cases Simplify.productWithVariable t (var y) with
  | case1 p q =>
    exact (timesAtom rfl (by grind)).bind fun _ h => (timesAtom rfl (by grind)).bind fun _ h' =>
      (sign rfl (by grind)).le (by grind)
  | case2 p q =>
    exact (timesAtom rfl (by grind)).bind fun _ h => (timesAtom rfl (by grind)).bind fun _ h' =>
      (sign rfl (by grind)).le (by grind)
  | case3 z n hz =>
    -- the exponent grows by one, which costs no more than the exponent did
    obtain ⟨x, rfl⟩ : ∃ x, z = var x := by
      cases z with
      | var x => exact ⟨x, rfl⟩
      | number | unary | binary => cases hz
    have hweight : (binary .power (var x) n).weight = 1 + n.load := rfl
    have hcost : cost .plus .one n ≤ 1 + n.load := by
      cases hn : n.isNumber with
      | true =>
        rw [cost, hn]
        exact Nat.le_add_right ..
      | false =>
        have hload := Tree.weight_le_load hn
        rw [cost, hn]
        exact Nat.add_le_add_left hload 1
    rw [hweight]
    refine ⟨?_, fun s hs => ?_⟩
    · change measure .plus .one n < _
      rw [measure, rank_sign rfl]
      omega
    · have hload : s.load ≤ n.load := hs.load_le_right rfl rfl
      have hpower : cost .power (var y) s = 1 + s.load := rfl
      refine (combine ?_).le (by omega)
      rw [measure, rank, hpower]
      omega
  | case4 => exact hplain
  | case5 => exact hplain

theorem productWithAtom (hx : x.isCompound = false) :
    Lightens (4 * t.weight + if x.isNumber && t.isMultiple then 3 else 2) (productWithAtom t x)
      t.weight := by
  cases x with
  | number c => exact productWithNumber
  | var y => exact productWithVariable
  | unary | binary => cases hx

theorem differenceOfSquares (h : 4 * (p.weight + 1 + (q.weight + 1)) < m) :
    Lightens m (differenceOfSquares p q) (p.weight + 1 + (q.weight + 1)) :=
  (square (by omega)).bind fun _ _ => (square (by omega)).bind fun _ _ =>
    (sign rfl (by omega)).le (by omega)

theorem productOfCompounds (ha : a.isCompound = true) (hb : b.isCompound = true) :
    Lightens (4 * (a.weight + b.weight) + 2) (productOfCompounds a b) (a.weight + b.weight) := by
  have hplain : (binary .times a b).weight ≤ a.weight + b.weight := by
    have hmerged : Tree.areMerged a b = false := by
      cases a with
      | number | var => cases ha
      | unary | binary =>
        cases b with
        | number | var => cases hb
        | unary | binary => simp [Tree.areMerged, Tree.isNumber]
    rw [Tree.weight_times, ha, hb, hmerged]
    exact le_rfl
  fun_cases Simplify.productOfCompounds a b with
  | case1 p q r s => exact (differenceOfSquares (by grind)).le (by grind)
  | case2 p q r s => exact (differenceOfSquares (by grind)).le (by grind)
  | case3 => exact hplain
  | case4 p q r s => exact (differenceOfSquares (by grind)).le (by grind)
  | case5 => exact hplain
  | case6 => exact hplain

theorem product : Lightens (measure .times a b) (product a b) (cost .times a b) := by
  have hcost := one_le_cost .times a b
  have hrank := two_le_rank_times a b
  fun_cases Simplify.product a b with
  | case1 c d => exact of_number (rounded _)
  | case2 => exact done hcost
  | case3 => exact done (weight_le_cost_times_right a b)
  | case4 => exact done (weight_le_cost_times_left a b)
  | case5 =>
    rename_i hsame
    cases ha : a.isCompound with
    | true =>
      have hb : b.isCompound = true := by
        by_contra hb
        exact (same_of_isCompound ha (by simpa using hb)).1 hsame
      rw [measure, cost_times_compounds ha hb]
      exact (square (by grind)).le (by grind)
    | false =>
      have hweight : (binary .power a .two).weight = 1 := by
        cases a with
        | number | var => rfl
        | unary | binary => cases ha
      have hpower : cost .power a .two = 1 := hweight
      have hrank' : rank .power a .two = 1 := rfl
      refine (combine ?_).le (hpower.trans_le hcost)
      rw [measure, measure, hpower]
      omega
  | case6 =>
    rw [measure, cost_times_compounds ‹_› ‹_›]
    exact (productOfCompounds ‹_› ‹_›).weaken (by omega)
  | case7 =>
    have hb : b.isCompound = false := ‹_›
    rw [measure, cost_times_atom_right a hb, rank, Tree.areMerged_atom_right a hb]
    exact productWithAtom hb
  | case8 =>
    have ha : a.isCompound = false := ‹_›
    rw [measure, cost_times_atom ha b, rank, Tree.areMerged_atom_left ha b]
    exact productWithAtom ha
  | case9 =>
    have ha : a.isCompound = false := ‹_›
    have hb : b.isCompound = false := ‹_›
    have hmerged : Tree.areMerged a b = false := by
      rw [Tree.areMerged_atom_left ha b, Tree.isMultiple_of_not_isCompound hb, Bool.and_false]
    refine done ?_
    rw [Tree.weight_times, cost, hmerged]
    exact le_rfl

/-! ### Quotients and powers -/

theorem quotientOfNumbers : Lightens m (quotientOfNumbers c d) 3 := by
  rw [Simplify.quotientOfNumbers]
  split
  · exact done le_rfl
  · refine ⟨trivial, fun q _ => ?_⟩
    cases q with
    | some q => exact (of_number (kept q)).le (by decide)
    | none => exact done le_rfl

theorem quotientOfSum :
    Lightens (4 * (p.weight + q.weight + b.weight + 1) + 1) (quotientOfSum p q b)
      (p.weight + q.weight + b.weight + 1) := by
  have hone : Tree.one.weight = 1 := rfl
  fun_cases Simplify.quotientOfSum p q b with
  | case1 => exact (div (by grind)).bind fun _ h => (sign rfl (by grind)).le (by grind)
  | case2 => exact (div (by grind)).bind fun _ h => (sign rfl (by grind)).le (by grind)
  | case3 => exact le_rfl

theorem quotientOfDifference :
    Lightens (4 * (p.weight + q.weight + b.weight + 1) + 1) (quotientOfDifference p q b)
      (p.weight + q.weight + b.weight + 1) := by
  have hone : Tree.one.weight = 1 := rfl
  fun_cases Simplify.quotientOfDifference p q b with
  | case1 => exact (div (by grind)).bind fun _ h => (sign rfl (by grind)).le (by grind)
  | case2 => exact (div (by grind)).bind fun _ h => (sign rfl (by grind)).le (by grind)
  | case3 => exact le_rfl

theorem quotientOfProduct :
    Lightens m (quotientOfProduct p q b) ((binary .times p q).weight + b.weight + 1) := by
  have hweight := cost_times_le_weight p q
  have hp := weight_le_cost_times_left p q
  have hq := weight_le_cost_times_right p q
  fun_cases Simplify.quotientOfProduct p q b with
  | case1 => exact done (by omega)
  | case2 => exact done (by omega)
  | case3 => exact le_rfl

theorem quotientOfQuotient :
    Lightens (4 * (p.weight + q.weight + 1 + b.weight + 1) + 1) (quotientOfQuotient p q b)
      (p.weight + q.weight + 1 + b.weight + 1) := by
  fun_cases Simplify.quotientOfQuotient p q b with
  | case1 r s =>
    exact (times (by grind)).bind fun _ h => (times (by grind)).bind fun _ h' =>
      (div (by grind)).le (by grind)
  | case2 => exact le_rfl
  | case3 => exact (times (by grind)).bind fun _ h => (div (by grind)).le (by grind)

theorem quotient : Lightens (measure .div a b) (quotient a b) (cost .div a b) := by
  have ha := a.one_le_weight
  rw [measure, cost, rank]
  fun_cases Simplify.quotient a b with
  | case1 c d => exact quotientOfNumbers
  | case2 => exact done (Nat.le_add_left ..)
  | case3 => exact done (by omega)
  | case4 => exact done (Nat.le_add_left ..)
  | case5 p q => exact quotientOfSum
  | case6 p q => exact quotientOfDifference
  | case7 p q => exact quotientOfProduct
  | case8 p q => exact quotientOfQuotient
  | case9 => exact le_rfl

theorem power : Lightens (measure .power a b) (power a b) (cost .power a b) := by
  have hcost := one_le_cost .power a b
  have ha : a.weight ≤ cost .power a b := by
    rw [cost, Tree.weight_power]
    omega
  fun_cases Simplify.power a b with
  | case1 => exact done hcost
  | case2 => exact done hcost
  | case3 c d =>
    refine ⟨trivial, fun r _ => ?_⟩
    cases r with
    | some v => exact (of_number (kept v)).le hcost
    | none => exact le_rfl
  | case4 => exact done hcost
  | case5 => exact done ha
  | case6 p c d =>
    -- one of two exponents goes, and with it what they weigh together
    have hpower : cost .power (binary .power p (number c)) (number d) =
        (binary .power p (number c)).weight + 1 := rfl
    have hproduct : measure .times (number c) (number d) = 6 := rfl
    have hbase := (binary .power p (number c)).one_le_weight
    refine ⟨?_, fun s hs => ?_⟩
    · change measure .times (number c) (number d) < _
      rw [hproduct, measure, hpower]
      omega
    · have hload : s.load = 0 := Nat.le_zero.mp (hs.load_le_right rfl rfl)
      obtain ⟨e, rfl⟩ := Tree.exists_of_isNumber (Tree.isNumber_of_load_eq_zero hload)
      have hmerged : cost .power p (number e) = (binary .power p (number c)).weight := rfl
      refine (combine ?_).le (by omega)
      rw [measure, measure, hpower, hmerged, rank, rank]
      omega
  | case7 => exact le_rfl

/-- Every rule builds a tree that weighs no more than its operation costs. -/
theorem rule (op : Binary) (a b : Tree) :
    Lightens (measure op a b) (rule op a b) (cost op a b) := by
  cases op with
  | plus => exact sum
  | minus => exact difference
  | times => exact product
  | div => exact quotient
  | power => exact power
  | _ => exact le_rfl

end Lightens

/-! ### Loads -/

/-- The plan builds a tree that makes no exponent heavier than `n`. -/
abbrev Loads (p : Plan Tree) (n : Nat) : Prop :=
  Ensures Light p fun s => s.load ≤ n

namespace Loads
variable {op : Binary} {n k : Nat}

theorem le {p : Plan Tree} (h : Loads p n) (hnk : n ≤ k) : Loads p k :=
  h.mono fun _ hs => hs.trans hnk

section
variable (hop : (op.isSign || op == .times) = true)
include hop

theorem combine_left (hb : b.isNumber = true) : Loads (Plan.combine op a b) a.load :=
  fun _ hs => hs.load_le_left hop hb

theorem combine_right (ha : a.isNumber = true) : Loads (Plan.combine op a b) b.load :=
  fun _ hs => hs.load_le_right hop ha

end

theorem isNumber_kept (c : Decimal) : Ensures Light (kept c) fun s => s.isNumber = true :=
  fun _ _ => rfl

theorem isNumber_rounded (c : Computation) :
    Ensures Light (rounded c) fun s => s.isNumber = true :=
  fun a _ => isNumber_kept a

theorem rounded (c : Computation) : Loads (rounded c) 0 :=
  fun _ _ _ _ => le_rfl

theorem twice : Loads (twice t) t.load :=
  fun _ hs => hs.load_le_right rfl rfl

theorem opposite : Loads (opposite t) t.load :=
  fun _ hs => hs.load_le_right rfl rfl

theorem signedSum : Loads (signedSum c t) t.load := by
  refine Ensures.bind (P := fun _ => True) (Ensures.ofExcept fun _ => trivial) fun atMost _ => ?_
  cases atMost with
  | true => exact (isNumber_kept c).bind fun _ hs => combine_right rfl hs
  | false => exact (isNumber_rounded _).bind fun _ hs => combine_left rfl hs

/-- A number behind a sign, where no rule merges it with another. -/
theorem done_left (hop : op.isSign = true) (hnumber : t.isNumber = false)
    (ht : t.hasNumberTerm = false) : Loads (.done (binary op t (number c))) t.load := by
  change Tree.load _ ≤ _
  rw [Tree.load_of_not_hasNumberTerm hnumber ht, Tree.load_number_right hop]

theorem done_right (hop : op.isSign = true) (hnumber : t.isNumber = false)
    (ht : t.hasNumberTerm = false) : Loads (.done (binary op (number c) t)) t.load := by
  change Tree.load _ ≤ _
  rw [Tree.load_of_not_hasNumberTerm hnumber ht, Tree.load_number_left hop]

/-- The other operand of a sum or a difference with a number. -/
theorem load_le_left (hop : op.isSign = true) (c : Decimal) (t : Tree) :
    t.load ≤ (binary op (number c) t).load := by
  rw [Tree.load_number_left hop]
  exact t.load_le

theorem load_le_right (hop : op.isSign = true) (t : Tree) (c : Decimal) :
    t.load ≤ (binary op t (number c)).load := by
  rw [Tree.load_number_right hop]
  exact t.load_le

theorem not_hasNumberTerm (h₁ : ∀ d x, t = binary .plus (number d) x → False)
    (h₂ : ∀ x d, t = binary .plus x (number d) → False)
    (h₃ : ∀ d x, t = binary .minus (number d) x → False)
    (h₄ : ∀ x d, t = binary .minus x (number d) → False) : t.hasNumberTerm = false := by
  by_contra h
  obtain ⟨op, d, x, hop, ht⟩ := Tree.exists_of_hasNumberTerm (by simpa using h)
  cases op with
  | plus => exact ht.elim (h₁ d x) (h₂ x d)
  | minus => exact ht.elim (h₃ d x) (h₄ x d)
  | _ => cases hop

section
variable (ht : t.isNumber = false)
include ht

theorem sumWithNumber : Loads (sumWithNumber t c) t.load := by
  fun_cases Simplify.sumWithNumber t c with
  | case1 d x => exact fun v _ => signedSum.le (load_le_left rfl d x)
  | case2 x d => exact fun v _ => signedSum.le (load_le_right rfl x d)
  | case3 d x =>
    exact (isNumber_rounded _).bind fun _ hs =>
      (combine_right rfl hs).le (load_le_left rfl d x)
  | case4 x d => exact fun v _ => signedSum.le (load_le_right rfl x d)
  | case5 => exact done_left rfl ht (not_hasNumberTerm ‹_› ‹_› ‹_› ‹_›)

theorem differenceWithNumber : Loads (differenceWithNumber t c) t.load := by
  fun_cases Simplify.differenceWithNumber t c with
  | case1 d x =>
    exact (isNumber_rounded _).bind fun _ hs =>
      (combine_right rfl hs).le (load_le_left rfl d x)
  | case2 x d =>
    exact (isNumber_rounded _).bind fun _ hs =>
      (combine_right rfl hs).le (load_le_right rfl x d)
  | case3 d x =>
    exact (isNumber_rounded _).bind fun _ hs =>
      (combine_right rfl hs).le (load_le_left rfl d x)
  | case4 x d =>
    exact (isNumber_rounded _).bind fun _ hs =>
      (combine_left rfl hs).le (load_le_right rfl x d)
  | case5 => exact done_left rfl ht (not_hasNumberTerm ‹_› ‹_› ‹_› ‹_›)

theorem differenceFromNumber : Loads (differenceFromNumber c t) t.load := by
  fun_cases Simplify.differenceFromNumber c t with
  | case1 d x =>
    exact (isNumber_rounded _).bind fun _ hs =>
      (combine_right rfl hs).le (load_le_left rfl d x)
  | case2 x d =>
    exact (isNumber_rounded _).bind fun _ hs =>
      (combine_right rfl hs).le (load_le_right rfl x d)
  | case3 d x =>
    exact (isNumber_rounded _).bind fun _ hs =>
      (combine_right rfl hs).le (load_le_left rfl d x)
  | case4 x d =>
    exact (isNumber_rounded _).bind fun _ hs =>
      (combine_right rfl hs).le (load_le_right rfl x d)
  | case5 => exact done_right rfl ht (not_hasNumberTerm ‹_› ‹_› ‹_› ‹_›)

end

/-- One of two terms was a number before both were multiplied. -/
theorem of_terms {p' q' : Tree} (hop : op.isSign = true) (h : (p.isNumber || q.isNumber) = true)
    (hp : p'.load ≤ p.load) (hq : q'.load ≤ q.load) :
    Loads (Plan.combine op p' q') (p.weight + q.weight) := by
  have hring : (op.isSign || op == .times) = true := by rw [hop, Bool.true_or]
  have hp' := p.load_le
  have hq' := q.load_le
  rcases Bool.or_eq_true_iff.mp h with h | h
  · obtain ⟨c, rfl⟩ := Tree.exists_of_isNumber h
    have hnumber := Tree.isNumber_of_load_eq_zero (Nat.le_zero.mp hp)
    refine (combine_right hring hnumber).le ?_
    rw [Tree.weight_number]
    omega
  · obtain ⟨c, rfl⟩ := Tree.exists_of_isNumber h
    have hnumber := Tree.isNumber_of_load_eq_zero (Nat.le_zero.mp hq)
    refine (combine_left hring hnumber).le ?_
    rw [Tree.weight_number]
    omega

theorem productWithNumber (ht : t.isNumber = false) : Loads (productWithNumber t c) t.load := by
  cases hterm : t.hasNumberTerm with
  | false =>
    rw [Tree.load_of_not_hasNumberTerm ht hterm]
    exact Lightens.productWithNumber.ensures.mono fun s hs =>
      s.load_le.trans (Nat.add_le_add_right hs 1)
  | true =>
    rw [Tree.load_of_hasNumberTerm hterm]
    fun_cases Simplify.productWithNumber t c with
    | case1 p q =>
      refine Ensures.bind (P := fun _ => True) (.ofExcept fun _ => trivial) fun less _ => ?_
      cases less with
      | true =>
        exact (combine_right rfl rfl).bind fun _ hp => (isNumber_rounded _).bind fun _ hc =>
          (combine_right rfl hc).bind fun _ hq => of_terms rfl hterm hp hq
      | false =>
        exact (combine_right rfl rfl).bind fun _ hp => (combine_right rfl rfl).bind fun _ hq =>
          of_terms rfl hterm hp hq
    | case2 p q =>
      refine Ensures.bind (P := fun _ => True) (.ofExcept fun _ => trivial) fun less _ => ?_
      cases less with
      | true =>
        exact (combine_right rfl rfl).bind fun _ hp => (combine_right rfl rfl).bind fun _ hq =>
          of_terms rfl hterm hp hq
      | false =>
        exact (combine_right rfl rfl).bind fun _ hp => (isNumber_rounded _).bind fun _ hc =>
          (combine_right rfl hc).bind fun _ hq => of_terms rfl hterm hp hq
    | case3 | case4 => cases hterm
    | case5 =>
      rename_i hplus hminus _ _
      obtain ⟨op, d, x, hop, h⟩ := Tree.exists_of_hasNumberTerm hterm
      cases op with
      | plus => exact (h.elim (hplus _ _) (hplus _ _)).elim
      | minus => exact (h.elim (hminus _ _) (hminus _ _)).elim
      | _ => cases hop

/-- Of two operands one is no number. -/
theorem not_both (h : ∀ c d, a = number c → b = number d → False) :
    (a.isNumber = true → b.isNumber = false) ∧ (b.isNumber = true → a.isNumber = false) := by
  cases a with
  | number c =>
    cases b with
    | number d => exact absurd rfl (h c d rfl)
    | var | unary | binary => simp [Tree.isNumber]
  | var | unary | binary => simp [Tree.isNumber]

theorem isNumber_of_same (h : a.same b = true) : a.isNumber = b.isNumber := by
  cases a <;> cases b <;> first | rfl | cases h

section
variable (ha : a.isNumber = true)
include ha

theorem sum_right : Loads (sum a b) b.load := by
  have hload : a.load ≤ b.load := (Tree.load_of_isNumber ha).trans_le (Nat.zero_le _)
  have hatom := Tree.isCompound_of_isNumber ha
  fun_cases Simplify.sum a b with
  | case1 c d => exact rounded _
  | case2 => exact le_rfl
  | case3 => exact hload
  | case4 => exact twice.le hload
  | case5 | case6 => cases hatom.symm.trans ‹a.isCompound = true›
  | case7 =>
    have hb := (not_both ‹_›).1 ha
    obtain ⟨c, rfl⟩ := Tree.exists_of_isNumber ha
    exact sumWithNumber hb
  | case8 =>
    have hb := (not_both ‹_›).1 ha
    obtain ⟨c, rfl⟩ := Tree.exists_of_isNumber ha
    exact done_right rfl hb (Tree.hasNumberTerm_of_not_isCompound ‹b.isCompound = false›)

theorem difference_right : Loads (difference a b) b.load := by
  have hload : a.load ≤ b.load := (Tree.load_of_isNumber ha).trans_le (Nat.zero_le _)
  have hatom := Tree.isCompound_of_isNumber ha
  fun_cases Simplify.difference a b with
  | case1 c d => exact rounded _
  | case2 => exact opposite
  | case3 => exact hload
  | case4 => exact Nat.zero_le _
  | case5 | case6 => cases hatom.symm.trans ‹a.isCompound = true›
  | case7 =>
    have hb := (not_both ‹_›).1 ha
    obtain ⟨c, rfl⟩ := Tree.exists_of_isNumber ha
    exact differenceFromNumber hb
  | case8 =>
    have hb := (not_both ‹_›).1 ha
    obtain ⟨c, rfl⟩ := Tree.exists_of_isNumber ha
    exact done_right rfl hb (Tree.hasNumberTerm_of_not_isCompound ‹b.isCompound = false›)

theorem product_right : Loads (product a b) b.load := by
  have hload : a.load ≤ b.load := (Tree.load_of_isNumber ha).trans_le (Nat.zero_le _)
  have hatom := Tree.isCompound_of_isNumber ha
  fun_cases Simplify.product a b with
  | case1 c d => exact rounded _
  | case2 => exact Nat.zero_le _
  | case3 => exact le_rfl
  | case4 => exact hload
  | case5 =>
    have hb := (not_both ‹_›).1 ha
    rw [← isNumber_of_same ‹_›, ha] at hb
    cases hb
  | case6 | case7 => cases hatom.symm.trans ‹a.isCompound = true›
  | case8 =>
    have hb := (not_both ‹_›).1 ha
    obtain ⟨c, rfl⟩ := Tree.exists_of_isNumber ha
    exact productWithNumber hb
  | case9 =>
    have hb := (not_both ‹_›).1 ha
    have hterm := Tree.hasNumberTerm_of_not_isCompound ‹b.isCompound = false›
    have hmultiple := Tree.isMultiple_of_not_isCompound ‹b.isCompound = false›
    obtain ⟨c, rfl⟩ := Tree.exists_of_isNumber ha
    change Tree.load _ ≤ _
    rw [Tree.load_of_not_hasNumberTerm hb hterm, Tree.load_of_not_hasNumberTerm rfl rfl,
      Tree.weight_number_times, hmultiple]
    exact le_rfl

end

section
variable (hb : b.isNumber = true)
include hb

theorem sum_left : Loads (sum a b) a.load := by
  have hload : b.load ≤ a.load := (Tree.load_of_isNumber hb).trans_le (Nat.zero_le _)
  have hatom := Tree.isCompound_of_isNumber hb
  fun_cases Simplify.sum a b with
  | case1 c d => exact rounded _
  | case2 => exact hload
  | case3 => exact le_rfl
  | case4 => exact twice
  | case5 | case7 => cases hatom.symm.trans ‹b.isCompound = true›
  | case6 =>
    have ha := (not_both ‹_›).2 hb
    obtain ⟨c, rfl⟩ := Tree.exists_of_isNumber hb
    exact sumWithNumber ha
  | case8 =>
    have ha := (not_both ‹_›).2 hb
    obtain ⟨c, rfl⟩ := Tree.exists_of_isNumber hb
    exact done_left rfl ha (Tree.hasNumberTerm_of_not_isCompound ‹a.isCompound = false›)

theorem difference_left : Loads (difference a b) a.load := by
  have hload : b.load ≤ a.load := (Tree.load_of_isNumber hb).trans_le (Nat.zero_le _)
  have hatom := Tree.isCompound_of_isNumber hb
  fun_cases Simplify.difference a b with
  | case1 c d => exact rounded _
  | case2 => exact opposite.le hload
  | case3 => exact le_rfl
  | case4 => exact Nat.zero_le _
  | case5 | case7 => cases hatom.symm.trans ‹b.isCompound = true›
  | case6 =>
    have ha := (not_both ‹_›).2 hb
    obtain ⟨c, rfl⟩ := Tree.exists_of_isNumber hb
    exact differenceWithNumber ha
  | case8 =>
    have ha := (not_both ‹_›).2 hb
    obtain ⟨c, rfl⟩ := Tree.exists_of_isNumber hb
    exact done_left rfl ha (Tree.hasNumberTerm_of_not_isCompound ‹a.isCompound = false›)

theorem product_left : Loads (product a b) a.load := by
  have hload : b.load ≤ a.load := (Tree.load_of_isNumber hb).trans_le (Nat.zero_le _)
  have hatom := Tree.isCompound_of_isNumber hb
  fun_cases Simplify.product a b with
  | case1 c d => exact rounded _
  | case2 => exact Nat.zero_le _
  | case3 => exact hload
  | case4 => exact le_rfl
  | case5 =>
    have ha := (not_both ‹_›).2 hb
    rw [isNumber_of_same ‹_›, hb] at ha
    cases ha
  | case6 | case8 => cases hatom.symm.trans ‹b.isCompound = true›
  | case7 =>
    have ha := (not_both ‹_›).2 hb
    obtain ⟨c, rfl⟩ := Tree.exists_of_isNumber hb
    exact productWithNumber ha
  | case9 =>
    have ha := (not_both ‹_›).2 hb
    have hterm := Tree.hasNumberTerm_of_not_isCompound ‹a.isCompound = false›
    have hmultiple := Tree.isMultiple_of_not_isCompound ‹a.isCompound = false›
    obtain ⟨c, rfl⟩ := Tree.exists_of_isNumber hb
    change Tree.load _ ≤ _
    rw [Tree.load_of_not_hasNumberTerm ha hterm, Tree.load_of_not_hasNumberTerm rfl rfl,
      Tree.weight_times_number, hmultiple]
    exact le_rfl

end

end Loads

/-- Every rule asks for operations of a smaller measure only, and it builds a light tree. -/
theorem Descends.rule (op : Binary) (a b : Tree) :
    Descends (measure op a b) (rule op a b) (IsLight op a b) := by
  have hloads : (op.isSign || op == .times) = true →
      (a.isNumber = true → Loads (Simplify.rule op a b) b.load) ∧
        (b.isNumber = true → Loads (Simplify.rule op a b) a.load) := by
    intro hop
    cases op with
    | plus => exact ⟨Loads.sum_right, Loads.sum_left⟩
    | minus => exact ⟨Loads.difference_right, Loads.difference_left⟩
    | times => exact ⟨Loads.product_right, Loads.product_left⟩
    | _ => cases hop
  have hright : Ensures Light (Simplify.rule op a b) fun s =>
      (op.isSign || op == .times) = true → a.isNumber = true → s.load ≤ b.load :=
    .forall_intro fun hop => .forall_intro fun ha => (hloads hop).1 ha
  have hleft : Ensures Light (Simplify.rule op a b) fun s =>
      (op.isSign || op == .times) = true → b.isNumber = true → s.load ≤ a.load :=
    .forall_intro fun hop => .forall_intro fun hb => (hloads hop).2 hb
  exact ((Lightens.rule op a b).and_ensures (hright.and hleft)).mono fun s h =>
    ⟨h.1, h.2.1, h.2.2⟩

end Reckon.Simplify
