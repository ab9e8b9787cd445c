import Reckon.Proofs.DerivativeRules
import Reckon.Proofs.DualNumbers
import Reckon.Proofs.RationalAnswers

/-!
# Derivatives of rational functions

In the dual numbers the slope of a tree is the coefficient of `ε`, and that is what the derivative
of the tree means (`Gives.derivativeLevels`). The derivative takes two names as the same if they
differ in capitals only, so the names with a value are told apart by that.
-/

namespace Reckon.Simplify

open DualNumber TrivSqZeroExt
open Reckon.Tree (number var unary binary)

variable {K : Type} [CommRing K] [Algebra ℚ K]
  {x : String} {ρ : String → Option K} {t : Tree} {w : K[ε]}

variable (x ρ) in
/-- Around the point the tree means `v + v' * ε`. -/
def MeansNearby (t : Tree) (v v' : K) : Prop :=
  ∃ w : K[ε], Means (nearby x ρ) t w ∧ w.fst = v ∧ w.snd = v'

theorem meansNearby (h : Means (nearby x ρ) t w) : MeansNearby x ρ t w.fst w.snd :=
  ⟨w, h, rfl, rfl⟩

instance : HasSlopes (Means ρ) (MeansNearby x ρ) where
  means := by
    rintro t _ _ ⟨w, h, rfl, rfl⟩
    exact h.fst
  plus := by
    rintro a b _ _ ⟨_, ⟨u, v, ha, hb, rfl⟩, rfl, rfl⟩
    exact ⟨_, _, _, _, meansNearby ha, meansNearby hb, rfl⟩
  minus := by
    rintro a b _ _ ⟨_, ⟨u, v, ha, hb, rfl⟩, rfl, rfl⟩
    exact ⟨_, _, _, _, meansNearby ha, meansNearby hb, rfl⟩
  times := by
    rintro a b _ _ ⟨_, ⟨u, v, ha, hb, rfl⟩, rfl, rfl⟩
    exact ⟨_, _, _, _, meansNearby ha, meansNearby hb, DualNumber.snd_mul u v⟩
  div := by
    rintro a b _ _ ⟨w, ⟨_, v, ha, hb, hv, rfl⟩, rfl, rfl⟩
    refine ⟨_, _, _, _, meansNearby ha, meansNearby hb, isUnit_iff_isUnit_fst.mp hv, ?_⟩
    rw [DualNumber.snd_mul, fst_mul]
    ring

namespace Gives

/-- A power around a point has an integer as the exponent. -/
theorem derivativeOfPower {a b : Tree} {derivative : Tree → Plan Tree}
    (hderivative : ∀ (t : Tree) (v v' : K), MeansNearby x ρ t v v' →
      Gives (Expected ρ) (Means ρ) (derivative t) v')
    (hzero : ∀ n, Ensures (Expected ρ) (derivative (number n)) fun s => s.isZero = true)
    (h : Means (nearby x ρ) (binary .power a b) w) :
    Gives (Expected ρ) (Means ρ) (Tree.derivativeOfPower derivative a b) w.snd := by
  obtain ⟨n, u, k, rfl, ha, hn, hw⟩ := Means.exists_of_power h
  refine derivativeOfIntegerPower hderivative hzero hn (meansNearby ha) ?_ ?_ ?_
  · rintro c rfl
    obtain ⟨q, -, rfl⟩ := ha
    exact hw.snd_eq_zero (by rw [algebraMap_eq_inl', snd_inl])
  · rintro rfl
    exact hw.snd_eq_zero_of_zero
  · intro hk
    obtain ⟨l, hl, hsnd⟩ := hw.exists_snd hk
    exact ⟨l, hsnd, fun m hm => ha.fst.power hm hl⟩

/-- The derivative of a tree means the coefficient of `ε`. -/
theorem derivativeLevels
    (hx : ∀ y v, ρ y = some v → (Text.lowercase y.toList = Text.lowercase x.toList ↔ y = x))
    (levels : Nat) (h : Means (nearby x ρ) t w) :
    Gives (Expected ρ) (Means ρ) (Tree.derivativeLevels x levels t) w.snd := by
  induction levels generalizing t w with
  | zero => trivial
  | succ levels ih =>
    have hderivative : ∀ (t : Tree) (v v' : K), MeansNearby x ρ t v v' →
        Gives (Expected ρ) (Means ρ) (Tree.derivativeLevels x levels t) v' := by
      rintro t _ _ ⟨w, h, rfl, rfl⟩
      exact ih h
    cases t with
    | number n =>
      obtain ⟨q, -, rfl⟩ := h
      rw [algebraMap_eq_inl', snd_inl]
      exact IsMeaning.zero (D := Means ρ)
    | var y =>
      have hy : nearby x ρ y = some w := h
      rw [nearby, Option.map_eq_some_iff] at hy
      obtain ⟨u, hu, rfl⟩ := hy
      simp only [Tree.derivativeLevels, hx y u hu]
      by_cases hxy : y = x
      · rw [if_pos hxy, if_pos hxy]
        exact IsMeaning.of_eq (IsMeaning.one (D := Means ρ)) (by simp)
      · rw [if_neg hxy, if_neg hxy]
        exact IsMeaning.of_eq (IsMeaning.zero (D := Means ρ)) (by simp)
    | unary op a => exact h.elim
    | binary op a b =>
      cases op with
      | plus | minus => exact derivativeOfTerms hderivative (meansNearby h)
      | times => exact derivativeOfProduct hderivative (meansNearby h)
      | div => exact derivativeOfQuotient hderivative (meansNearby h)
      | power => exact derivativeOfPower hderivative (ensures_derivative_number x levels) h
      | _ => exact h.elim

end Gives

end Reckon.Simplify
