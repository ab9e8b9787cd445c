import Reckon.Proofs.AlikeOrder
import Reckon.Proofs.Displayable

/-!
# The order of decimals and of their values

Decimals that are numbers are compared as their values are (`order_eq_compare`), whatever form they
are in.
-/

namespace Reckon.Decimal

variable {a b : Decimal} {p q : ℚ}

theorem toRat?_ofNat (n : Nat) : (ofNat n).toRat? = some (n : ℚ) := by
  rw [ofNat, toRat?_finite, signed_false, zpow_zero, mul_one, Int.cast_natCast]

theorem same_iff_toRat? (hb : b.toRat? = some q) : a.same b = true ↔ a.toRat? = some q :=
  ⟨fun h => (toRat?_eq_of_same h).trans hb, fun ha => same_of_toRat?_eq ha hb⟩

theorem same_eq_true_iff (ha : a.toRat? = some p) (hb : b.toRat? = some q) :
    a.same b = true ↔ p = q := by
  rw [same_iff_toRat? hb, ha, Option.some_inj]

/-- The value of a finite decimal by its sign; zero has none. -/
theorem value_eq_ite {m : Bool} {c : Nat} {e : Int} (ha : (finite m c e).toRat? = some p) :
    p = if m = true ∧ c ≠ 0 then -((c : ℚ) * 10 ^ e) else c * 10 ^ e := by
  rw [toRat?_finite, Option.some_inj] at ha
  rw [← ha]
  cases m with
  | false => simp [signed]
  | true =>
    rw [signed_true]
    push_cast
    split
    · rw [neg_mul]
    · rename_i hc
      have hc : c = 0 := by simpa using hc
      simp [hc]

/-- Decimals are ordered as their values are. -/
theorem order_eq_compare (ha : a.toRat? = some p) (hb : b.toRat? = some q) :
    order a b = .ok (compare p q) := by
  cases a with
  | infinite | nan => cases ha
  | finite m c e =>
    cases b with
    | infinite | nan => cases hb
    | finite n c' e' =>
      have hnonneg : (0 : ℚ) ≤ c * 10 ^ e := mul_nonneg (Nat.cast_nonneg c) (ten_zpow_pos e).le
      have hnonneg' : (0 : ℚ) ≤ c' * 10 ^ e' := mul_nonneg (Nat.cast_nonneg c') (ten_zpow_pos e').le
      have hpos : c ≠ 0 → (0 : ℚ) < c * 10 ^ e := fun hc =>
        mul_pos (by exact_mod_cast Nat.pos_of_ne_zero hc) (ten_zpow_pos e)
      have hpos' : c' ≠ 0 → (0 : ℚ) < c' * 10 ^ e' := fun hc =>
        mul_pos (by exact_mod_cast Nat.pos_of_ne_zero hc) (ten_zpow_pos e')
      rw [value_eq_ite ha, value_eq_ite hb]
      simp only [order, compare?, compareMagnitude_eq_compare]
      by_cases hzero : c = 0 ∧ c' = 0
      · simp [hzero]
      rw [if_neg hzero]
      by_cases hneg : m = true ∧ c ≠ 0
      · rw [if_pos hneg, if_pos hneg]
        by_cases hneg' : n = true ∧ c' ≠ 0
        · rw [if_pos hneg', if_pos hneg']
          rcases lt_trichotomy ((c : ℚ) * 10 ^ e) (c' * 10 ^ e') with h | h | h
          · rw [compare_gt_iff_gt.mpr h, compare_gt_iff_gt.mpr (neg_lt_neg h)]
          · rw [h]
            simp
          · rw [compare_lt_iff_lt.mpr h, compare_lt_iff_lt.mpr (neg_lt_neg h)]
        · rw [if_neg hneg', if_neg hneg', compare_lt_iff_lt.mpr]
          linarith [hpos hneg.2]
      · rw [if_neg hneg, if_neg hneg]
        by_cases hneg' : n = true ∧ c' ≠ 0
        · rw [if_pos hneg', if_pos hneg', compare_gt_iff_gt.mpr]
          linarith [hpos' hneg'.2]
        · rw [if_neg hneg', if_neg hneg']

theorem less_eq_decide (ha : a.toRat? = some p) (hb : b.toRat? = some q) :
    a.less b = .ok (decide (p < q)) := by
  rw [less, order_eq_compare ha hb]
  change Except.ok (compare p q).isLT = _
  rcases lt_trichotomy p q with h | h | h
  · rw [compare_lt_iff_lt.mpr h, decide_eq_true h]
    rfl
  · rw [compare_eq_iff_eq.mpr h, decide_eq_false h.not_lt]
    rfl
  · rw [compare_gt_iff_gt.mpr h, decide_eq_false h.not_gt]
    rfl

theorem atMost_eq_decide (ha : a.toRat? = some p) (hb : b.toRat? = some q) :
    a.atMost b = .ok (decide (p ≤ q)) := by
  rw [atMost, order_eq_compare ha hb]
  change Except.ok (compare p q).isLE = _
  rcases lt_trichotomy p q with h | h | h
  · rw [compare_lt_iff_lt.mpr h, decide_eq_true h.le]
    rfl
  · rw [compare_eq_iff_eq.mpr h, decide_eq_true h.le]
    rfl
  · rw [compare_gt_iff_gt.mpr h, decide_eq_false h.not_ge]
    rfl

theorem isNegative_of_pos (ha : a.toRat? = some p) (hp : 0 < p) : a.isNegative = false := by
  cases a with
  | infinite | nan => cases ha
  | finite negative c e =>
    cases negative with
    | false => rfl
    | true =>
      have hnonneg : (0 : ℚ) ≤ c * 10 ^ e := mul_nonneg (Nat.cast_nonneg c) (ten_zpow_pos e).le
      have hvalue := value_eq_ite ha
      split_ifs at hvalue with hc
      · linarith
      · have hzero : c = 0 := by simpa using hc
        rw [hzero, Nat.cast_zero, zero_mul] at hvalue
        exact absurd hvalue hp.ne'

end Reckon.Decimal
