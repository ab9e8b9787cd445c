import Reckon.Proofs.ExactValue
import Reckon.Proofs.ProductRules

/-!
# Answers that keep rational meanings

The tree in place of an operation should mean what the operation means, and be a number where two
numbers are joined by a sum, a difference or a product, so that an exponent stays one, and a product
with zero should be zero whatever the other factor is (`Replaces`). Such answers keep the meaning of
rational functions, and so do the rules for powers.
-/

namespace Reckon.Simplify

open Reckon.Tree (number var unary binary)

variable {K : Type} [CommRing K] [Algebra ℚ K] {ρ : String → Option K}

instance : IsMeaning (Means ρ) where
  number_iff := Iff.rfl
  plus_iff := Iff.rfl
  minus_iff := Iff.rfl
  times_iff := Iff.rfl
  div_iff := Iff.rfl
  eq_of_same := Means.eq_of_same

variable (ρ) in
/-- The tree `s` may stand for the operation on `a` and `b`. -/
structure Replaces (op : Binary) (a b s : Tree) : Prop where
  means : ∀ v, Means ρ (binary op a b) v → Means ρ s v
  isNumber : ∀ x y q, a = number x → b = number y → computed? op x y = some q → IsNumber q s
  isZero : op = .times → a.isZero = true ∨ b.isZero = true → s.isZero = true

variable (ρ) in
def Expected : (q : Question) → q.Answer → Prop
  | .number c, a => ∃ q, c.value? = some q ∧ a.toRat? = some q
  | .integer c, r => ∀ a ∈ r, ∃ q, c.value? = some q ∧ a.toRat? = some q
  | .tree op a b, s => Replaces ρ op a b s

instance : KeepsSums (Expected ρ) (Means ρ) where
  number h := h
  isNumber h hq := h.isNumber _ _ _ rfl rfl hq
  plus h := h.means _
  minus h := h.means _
  scaled h := h.means _

instance : KeepsProducts (Expected ρ) (Means ρ) where
  times h := h.means _
  isZero h := h.isZero rfl
  div h := h.means _
  power h _ := h.means _
  square ha := ha.power (k := 2) (by simpa using Decimal.toRat?_two) (IsPower.two _)
  quotient h := h
  times_power := by
    intro x y n u v _ hsame hx h
    obtain ⟨n, a, k, rfl, hy, hn, hw⟩ := Means.exists_of_power h
    obtain rfl := Means.eq_of_same hsame hy hx
    refine Gives.bind_isNumber (ensures_plus (Means ρ) Decimal.toRat?_one hn) fun m hm s hs => ?_
    exact hs.means _ (hx.power (k := 1 + k) (by rw [hm]; push_cast; rfl) hw.mul_self)

namespace Gives
variable {p q : Tree} {w : K}

theorem powerOfNumbers {x y : Decimal} (h : Means ρ (binary .power (number x) (number y)) w) :
    Gives (Expected ρ) (Means ρ) (powerOfNumbers x y) w := by
  unfold Simplify.powerOfNumbers
  intro r hr
  cases r with
  | none => exact h
  | some z =>
    obtain ⟨m, hm, hz⟩ := hr z rfl
    obtain ⟨u, k, ⟨x', hx, rfl⟩, hy, hw⟩ := h
    rw [IntegerComputation.value?, hx, hy] at hm
    simp only [Option.bind_eq_bind, Option.bind_some] at hm
    have hpower : IsPower x' k m := isPower_of_integralPower hm
    exact (kept hz).of_eq ((hpower.map (algebraMap ℚ K)).unique hw)

theorem power (h : Means ρ (binary .power p q) w) :
    Gives (Expected ρ) (Means ρ) (power p q) w := by
  have hplain := h
  obtain ⟨n, u, k, rfl, hp, hn, hw⟩ := Means.exists_of_power h
  have hzero : (number n).isZero = true → k = 0 := by
    intro hz
    have := Decimal.toRat?_eq_of_same (a := n) (b := .zero) hz
    rw [hn, Decimal.toRat?_zero] at this
    exact_mod_cast Option.some.inj this
  have hone : (number n).isOne = true → k = 1 := by
    intro hz
    have := Decimal.toRat?_eq_of_same (a := n) (b := .one) hz
    rw [hn, Decimal.toRat?_one] at this
    exact_mod_cast Option.some.inj this
  unfold Simplify.power
  split
  · rename_i heq
    cases heq
    split
    · rename_i h
      rw [Bool.or_eq_true] at h
      rcases h with h | h
      · rw [IsMeaning.eq_one hp h] at hw
        exact IsMeaning.of_eq (IsMeaning.one (D := Means ρ)) hw.of_one.symm
      · rw [hzero h] at hw
        exact IsMeaning.of_eq (IsMeaning.one (D := Means ρ)) ((IsPower.zero u).unique hw)
    split
    · rename_i h
      rw [hone h] at hw
      exact hp.of_eq ((IsPower.one u).unique hw)
    · exact powerOfNumbers hplain
  split
  · rename_i h
    rw [hzero h] at hw
    exact IsMeaning.of_eq (IsMeaning.one (D := Means ρ)) ((IsPower.zero u).unique hw)
  split
  · rename_i h
    rw [hone h] at hw
    exact hp.of_eq ((IsPower.one u).unique hw)
  split
  · rename_i heq _
    cases heq
    obtain ⟨a, j, ha, hj, hu⟩ := hp
    refine bind_isNumber (ensures_computed (Means ρ) (value?_product hj hn)) fun m hm s hs => ?_
    exact hs.means _ (ha.power (k := j * k) (by rw [hm]; push_cast; rfl) (hu.pow hw))
  · exact hplain

end Gives

end Reckon.Simplify
