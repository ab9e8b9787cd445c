import Mathlib.Algebra.Algebra.Basic
import Mathlib.Tactic.LinearCombination
import Reckon.Proofs.ExactArithmetic
import Reckon.Proofs.Meaning

/-!
# The exact value of a tree

`Tree.exact I ρ t` is the value of `t` in rational arithmetic, where there is one: no number is
rounded, a quotient has no value if the divisor is zero, and what powers and functions are is left
to the interpretation `I`. A tree of sums, differences, products, quotients and powers with an
integer as the exponent `isRational`; its value is then its meaning in the rationals
(`means_of_exact`, `exact_of_means`).
-/

namespace Reckon

open Reckon.Simplify (integralPower integralPower_intCast)

/-- What powers, logarithms and functions are: any functions, which may be partial. -/
structure Interpretation where
  unary : Unary → ℚ → Option ℚ
  power : ℚ → ℚ → Option ℚ
  log : ℚ → ℚ → Option ℚ

/-- Powers with an integer as the exponent, and no functions. -/
def Interpretation.integral : Interpretation where
  unary _ _ := none
  power := integralPower
  log _ _ := none

def exactTruth (p : Prop) [Decidable p] : ℚ :=
  if p then 1 else 0

/-- The value of an operator of one operand; `not` is about being one. -/
def Unary.exact (I : Interpretation) : Unary → ℚ → Option ℚ
  | not, x => some (exactTruth (x ≠ 1))
  | op, x => I.unary op x

/-- The value of an operator of two operands. A remainder has the sign of the dividend. -/
def Binary.exact (I : Interpretation) : Binary → ℚ → ℚ → Option ℚ
  | plus, x, y => some (x + y)
  | minus, x, y => some (x - y)
  | times, x, y => some (x * y)
  | div, x, y => if y = 0 then none else some (x / y)
  | modulo, x, y => if y = 0 then none else some (x - y * (x / y).num.tdiv (x / y).den)
  | power, x, y => I.power x y
  | log, x, y => I.log x y
  | greater, x, y => some (exactTruth (y < x))
  | less, x, y => some (exactTruth (x < y))
  | atLeast, x, y => some (exactTruth (y ≤ x))
  | atMost, x, y => some (exactTruth (x ≤ y))
  | equal, x, y => some (exactTruth (x = y))
  | unequal, x, y => some (exactTruth (x ≠ y))
  | or, x, y => some (exactTruth (x = 1 ∨ y = 1))
  | and, x, y => some (exactTruth (x = 1 ∧ y = 1))

namespace Tree

def exact (I : Interpretation) (ρ : String → ℚ) : Tree → Option ℚ
  | number a => a.toRat?
  | var x => some (ρ x)
  | unary op a => a.exact I ρ >>= op.exact I
  | binary op a b => do op.exact I (← a.exact I ρ) (← b.exact I ρ)

/-- Finite numbers and variables joined by sums, differences, products and quotients, and raised
to integers. -/
def isRational : Tree → Bool
  | number a => a.isFinite
  | var _ => true
  | binary .power a (number n) => a.isRational && n.isIntegral
  | binary .plus a b | binary .minus a b | binary .times a b | binary .div a b =>
    a.isRational && b.isRational
  | _ => false

end Tree

/-! ### Integers -/

theorem Decimal.toRat?_of_nonneg {negative : Bool} {c : Nat} {e : Int} (he : 0 ≤ e) :
    (finite negative c e).toRat? = some ((signed negative c * 10 ^ e.toNat : ℤ) : ℚ) := by
  rw [toRat?_finite]
  push_cast
  rw [← zpow_natCast, Int.toNat_of_nonneg he]

theorem Decimal.exists_of_isIntegral {a : Decimal} (h : a.isIntegral = true) :
    ∃ k : ℤ, a.toRat? = some (k : ℚ) := by
  cases a with
  | infinite | nan => cases h
  | finite negative c e =>
    rcases Int.le_total 0 e with he | he
    · exact ⟨_, toRat?_of_nonneg he⟩
    simp only [isIntegral, Bool.or_eq_true, decide_eq_true_eq, Bool.and_eq_true] at h
    rcases h with (he | rfl) | ⟨-, hc⟩
    · exact ⟨_, toRat?_of_nonneg he⟩
    · refine ⟨0, ?_⟩
      rw [toRat?_finite]
      cases negative <;> simp [signed]
    · obtain ⟨d, rfl⟩ := Nat.dvd_of_mod_eq_zero hc
      refine ⟨signed negative d, ?_⟩
      have hpow : ((tenTo (-e).toNat : ℕ) : ℚ) * 10 ^ e = 1 := by
        have := ten_zpow_split he
        rw [zpow_zero, zero_sub] at this
        exact this.symm
      rw [toRat?_finite]
      congr 1
      cases negative with
      | true =>
        rw [signed_true, signed_true]
        push_cast
        linear_combination -d * hpow
      | false =>
        rw [signed_false, signed_false]
        push_cast
        linear_combination d * hpow

/-! ### Values and meanings -/

theorem integralPower_of_isPower {x y : ℚ} {k : ℤ} (h : IsPower x k y) :
    integralPower x k = some y := by
  rw [integralPower_intCast]
  cases h with
  | nat x n => simp
  | unit x k => simp

theorem isPower_of_integralPower {x y : ℚ} {k : ℤ} (h : integralPower x k = some y) :
    IsPower x k y := by
  rw [integralPower_intCast] at h
  split at h
  · cases h
  · rename_i hdefined
    cases h
    rcases lt_or_ge k 0 with hk | hk
    · have hx : x ≠ 0 := fun h0 => hdefined ⟨h0, hk⟩
      simpa using IsPower.unit (Units.mk0 x hx) k
    · obtain ⟨n, rfl⟩ := Int.eq_ofNat_of_zero_le hk
      simpa using IsPower.nat x n

namespace Tree
variable {ρ : String → ℚ} {t : Tree} {v : ℚ}

theorem means_of_exact (ht : t.isRational = true) (h : t.exact .integral ρ = some v) :
    Means (fun x => some (ρ x)) t v := by
  induction t generalizing v with
  | number a => exact ⟨v, h, rfl⟩
  | var x => exact h
  | unary op a => cases ht
  | binary op a b iha ihb =>
    obtain ⟨x, hx, h⟩ := Option.bind_eq_some_iff.mp h
    obtain ⟨y, hy, h⟩ := Option.bind_eq_some_iff.mp h
    cases op with
    | plus | minus | times =>
      rw [isRational, Bool.and_eq_true] at ht
      exact ⟨x, y, iha ht.1 hx, ihb ht.2 hy, (Option.some.inj h).symm⟩
    | div =>
      rw [isRational, Bool.and_eq_true] at ht
      rw [Binary.exact] at h
      split at h
      · cases h
      · rename_i hne
        cases h
        exact ⟨x, y, iha ht.1 hx, ihb ht.2 hy, IsUnit.mk0 y hne, div_mul_cancel₀ x hne⟩
    | power =>
      cases b with
      | number n =>
        rw [isRational, Bool.and_eq_true] at ht
        obtain ⟨k, hk⟩ := Decimal.exists_of_isIntegral ht.2
        obtain rfl : y = k := Option.some.inj (hy.symm.trans hk)
        exact ⟨x, k, iha ht.1 hx, hk, isPower_of_integralPower h⟩
      | var | unary | binary => cases ht
    | _ => cases ht

theorem exact_of_means (h : Means (fun x => some (ρ x)) t v) : t.exact .integral ρ = some v := by
  induction t generalizing v with
  | number a =>
    obtain ⟨q, hq, rfl⟩ := h
    exact hq
  | var x => exact h
  | unary op a => exact h.elim
  | binary op a b iha ihb =>
    cases op with
    | plus | minus | times =>
      obtain ⟨u, v, ha, hb, rfl⟩ := h
      rw [exact, iha ha, ihb hb]
      rfl
    | div =>
      obtain ⟨u, v, ha, hb, hv, rfl⟩ := h
      rw [exact, iha ha, ihb hb]
      have hne : v ≠ 0 := hv.ne_zero
      simp [Binary.exact, hne]
    | power =>
      obtain ⟨n, u, k, rfl, ha, hn, hw⟩ := Means.exists_of_power h
      rw [exact, iha ha, exact, hn]
      exact integralPower_of_isPower hw
    | _ => exact h.elim

/-- In the algebra with one element every rational tree has a meaning. -/
theorem means_of_isRational (ht : t.isRational = true) :
    Means (fun _ => some PUnit.unit) t PUnit.unit := by
  induction t with
  | number a =>
    cases a with
    | finite => exact ⟨_, rfl, rfl⟩
    | infinite | nan => cases ht
  | var x => rfl
  | unary op a => cases ht
  | binary op a b iha ihb =>
    cases op with
    | plus | minus | times =>
      rw [isRational, Bool.and_eq_true] at ht
      exact ⟨_, _, iha ht.1, ihb ht.2, rfl⟩
    | div =>
      rw [isRational, Bool.and_eq_true] at ht
      exact ⟨_, _, iha ht.1, ihb ht.2, isUnit_of_subsingleton _, rfl⟩
    | power =>
      cases b with
      | number n =>
        rw [isRational, Bool.and_eq_true] at ht
        obtain ⟨k, hk⟩ := Decimal.exists_of_isIntegral ht.2
        exact ⟨_, k, iha ht.1, hk, IsPower.unit 1 k⟩
      | var | unary | binary => cases ht
    | _ => cases ht

end Tree

end Reckon
