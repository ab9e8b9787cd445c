import Mathlib.Data.Rat.Lemmas
import Mathlib.Tactic.Linarith
import Mathlib.Tactic.Ring
import Mathlib.Tactic.NormNum
import Mathlib.Algebra.Order.Field.Basic
import Reckon.Decimal.Arithmetic

/-!
# The value of a decimal

A finite decimal is a rational number, `toRat?`. Numbers that compare as the same have the same
value.
-/

namespace Reckon.Decimal

/-- The value of a finite decimal. -/
def toRat? : Decimal → Option ℚ
  | finite negative c e => some ((signed negative c : ℚ) * 10 ^ e)
  | infinite _ => none
  | nan => none

theorem toRat?_finite (negative : Bool) (c : Nat) (e : Int) :
    (finite negative c e).toRat? = some ((signed negative c : ℚ) * 10 ^ e) := rfl

theorem toRat?_zero : zero.toRat? = some 0 := by
  simp [zero, ofNat, toRat?, signed]

theorem toRat?_one : one.toRat? = some 1 := by
  simp [one, ofNat, toRat?, signed]

theorem toRat?_two : two.toRat? = some 2 := by
  simp [two, ofNat, toRat?, signed]

theorem toRat?_minusOne : minusOne.toRat? = some (-1) := by
  simp [minusOne, toRat?, signed]

theorem signed_true (n : Nat) : signed true n = -n := rfl

theorem signed_false (n : Nat) : signed false n = n := rfl

theorem toRat?_flip (a : Decimal) : a.flip.toRat? = a.toRat?.map (- ·) := by
  cases a with
  | finite negative c e =>
    cases negative with
    | true => simp [flip, toRat?, signed]
    | false => simp [flip, toRat?, signed]
  | infinite _ => rfl
  | nan => rfl

/-! ### Comparing -/

theorem ten_zpow_split {e e' : Int} (h : e' ≤ e) :
    (10 : ℚ) ^ e = (tenTo (e - e').toNat : ℕ) * 10 ^ e' := by
  have hn : ((e - e').toNat : Int) = e - e' := Int.toNat_of_nonneg (by omega)
  have hpow : ((tenTo (e - e').toNat : ℕ) : ℚ) = 10 ^ ((e - e').toNat : ℤ) := by
    rw [zpow_natCast]
    simp [tenTo]
  rw [hpow, hn, ← zpow_add₀ (by norm_num)]
  congr 1
  ring

/-- Two magnitudes that compare as equal are equal numbers. -/
theorem mul_zpow_eq_of_compareMagnitude {c c' : Nat} {e e' : Int}
    (h : compareMagnitude c e c' e' = .eq) : (c : ℚ) * 10 ^ e = c' * 10 ^ e' := by
  unfold compareMagnitude at h
  split at h
  · rename_i hc
    split at h
    · rename_i hc'
      simp [hc, hc']
    · cases h
  split at h
  · cases h
  split at h
  · have heq : c * tenTo (e - e').toNat = c' * tenTo (e' - e).toNat := Nat.compare_eq_eq.mp h
    rcases Int.le_total e' e with hle | hle
    · have hzero : (e' - e).toNat = 0 := by omega
      rw [hzero] at heq
      rw [ten_zpow_split hle, ← mul_assoc, ← Nat.cast_mul, heq]
      simp [tenTo]
    · have hzero : (e - e').toNat = 0 := by omega
      rw [hzero] at heq
      rw [ten_zpow_split hle, ← mul_assoc, ← Nat.cast_mul, ← heq]
      simp [tenTo]
  · rename_i hne
    exact absurd h hne

theorem toRat?_eq_of_same {a b : Decimal} (h : a.same b = true) : a.toRat? = b.toRat? := by
  rw [same, beq_iff_eq] at h
  cases a with
  | nan => cases h
  | infinite m =>
    cases b with
    | nan => cases h
    | infinite n => rfl
    | finite n c' e' => rw [compare?] at h; cases m <;> cases h
  | finite m c e =>
    cases b with
    | nan => cases h
    | infinite n => rw [compare?] at h; cases n <;> cases h
    | finite n c' e' =>
      rw [compare?] at h
      rw [toRat?_finite, toRat?_finite]
      split at h
      · rename_i hzero
        rw [hzero.1, hzero.2]
        cases m <;> cases n <;> simp [signed]
      split at h
      · rename_i hm
        split at h
        · rename_i hn
          have := mul_zpow_eq_of_compareMagnitude (Option.some.inj h)
          rw [hm.1, hn.1, signed_true, signed_true]
          push_cast
          rw [neg_mul, neg_mul, this]
        · cases h
      split at h
      · cases h
      · rename_i hm hn
        have heq := mul_zpow_eq_of_compareMagnitude (Option.some.inj h)
        have hpos : ∀ {k : Bool} {d : Nat}, ¬ (k = true ∧ d ≠ 0) → signed k d = d := by
          intro k d hk
          cases k with
          | false => rfl
          | true =>
            have hd : d = 0 := by
              by_contra hd
              exact hk ⟨rfl, hd⟩
            rw [hd]
            rfl
        rw [hpos hm, hpos hn]
        push_cast
        rw [heq]

theorem coefficient_eq_zero {negative : Bool} {c : Nat} {e : Int}
    (h : (finite negative c e).toRat? = some 0) : c = 0 := by
  rw [toRat?_finite, Option.some_inj, mul_eq_zero] at h
  rcases h with h | h
  · cases negative <;> simpa [signed] using h
  · exact absurd h (zpow_ne_zero e (by norm_num))

theorem isZero_of_toRat? {a : Decimal} (h : a.toRat? = some 0) : a.isZero = true := by
  cases a with
  | infinite | nan => cases h
  | finite m c e =>
    rw [coefficient_eq_zero h]
    rfl

theorem isZero_iff {a : Decimal} : a.isZero = true ↔ ∃ negative e, a = finite negative 0 e := by
  constructor
  · intro h
    have hvalue : a.toRat? = some 0 := (toRat?_eq_of_same h).trans toRat?_zero
    cases a with
    | infinite | nan => cases hvalue
    | finite negative c e => exact ⟨negative, e, by rw [coefficient_eq_zero hvalue]⟩
  · rintro ⟨negative, e, rfl⟩
    rfl

end Reckon.Decimal
