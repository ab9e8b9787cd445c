import Mathlib.Algebra.MvPolynomial.PDeriv
import Reckon.Proofs.DualNumbers
import Reckon.Proofs.ExactValue

/-!
# Partial derivatives of rational functions

A rational tree denotes a quotient of two polynomials in its variables, `Tree.fraction`, and has its
value wherever the tree is defined (`fraction_value`). The partial derivative of a fraction is that
of the quotient rule. It is the coefficient of `ε` in what the tree means in the dual numbers
(`snd_eq_partialDerivative`).
-/

namespace Reckon

open DualNumber TrivSqZeroExt MvPolynomial
open Reckon.Tree (number var unary binary)

/-- A quotient of two polynomials. -/
structure Fraction where
  numerator : MvPolynomial String ℚ
  denominator : MvPolynomial String ℚ

namespace Fraction

noncomputable def value (f : Fraction) (ρ : String → ℚ) : ℚ :=
  eval ρ f.numerator / eval ρ f.denominator

/-- The partial derivative, by the quotient rule. -/
noncomputable def partialDerivative (x : String) (f : Fraction) : Fraction where
  numerator := pderiv x f.numerator * f.denominator - f.numerator * pderiv x f.denominator
  denominator := f.denominator ^ 2

noncomputable def power (f : Fraction) : ℤ → Fraction
  | .ofNat n => ⟨f.numerator ^ n, f.denominator ^ n⟩
  | .negSucc n => ⟨f.denominator ^ (n + 1), f.numerator ^ (n + 1)⟩

end Fraction

/-- The rational function that a rational tree denotes. -/
noncomputable def Tree.fraction : Tree → Fraction
  | number a => ⟨C (a.toRat?.getD 0), 1⟩
  | var x => ⟨X x, 1⟩
  | binary .plus a b =>
    let f := a.fraction
    let g := b.fraction
    ⟨f.numerator * g.denominator + g.numerator * f.denominator, f.denominator * g.denominator⟩
  | binary .minus a b =>
    let f := a.fraction
    let g := b.fraction
    ⟨f.numerator * g.denominator - g.numerator * f.denominator, f.denominator * g.denominator⟩
  | binary .times a b =>
    let f := a.fraction
    let g := b.fraction
    ⟨f.numerator * g.numerator, f.denominator * g.denominator⟩
  | binary .div a b =>
    let f := a.fraction
    let g := b.fraction
    ⟨f.numerator * g.denominator, f.denominator * g.numerator⟩
  | binary .power a (number n) => a.fraction.power (n.toRat?.getD 0).num
  | _ => ⟨0, 1⟩

variable {K : Type} [CommRing K]

/-- The element `v` is the quotient of `a` and the unit `b`. -/
def IsQuotient (v a b : K) : Prop :=
  IsUnit b ∧ v * b = a

namespace IsQuotient
variable {u v w a b c d : K}

theorem plus (h : IsQuotient u a b) (h' : IsQuotient v c d) :
    IsQuotient (u + v) (a * d + c * b) (b * d) := by
  refine ⟨h.1.mul h'.1, ?_⟩
  rw [← h.2, ← h'.2]
  ring

theorem minus (h : IsQuotient u a b) (h' : IsQuotient v c d) :
    IsQuotient (u - v) (a * d - c * b) (b * d) := by
  refine ⟨h.1.mul h'.1, ?_⟩
  rw [← h.2, ← h'.2]
  ring

theorem times (h : IsQuotient u a b) (h' : IsQuotient v c d) :
    IsQuotient (u * v) (a * c) (b * d) := by
  refine ⟨h.1.mul h'.1, ?_⟩
  rw [← h.2, ← h'.2]
  ring

theorem div (h : IsQuotient (w * v) a b) (hv : IsUnit v) (h' : IsQuotient v c d) :
    IsQuotient w (a * d) (b * c) := by
  refine ⟨h.1.mul (h'.2 ▸ hv.mul h'.1), ?_⟩
  rw [← h.2, ← h'.2]
  ring

theorem pow (h : IsQuotient u a b) (n : ℕ) : IsQuotient (u ^ n) (a ^ n) (b ^ n) :=
  ⟨h.1.pow n, by rw [← mul_pow, h.2]⟩

/-- The quotient the other way round. -/
theorem inv {e : Kˣ} (h : IsQuotient (e : K) a b) : IsQuotient ((e⁻¹ : Kˣ) : K) b a := by
  refine ⟨h.2 ▸ e.isUnit.mul h.1, ?_⟩
  rw [← h.2, ← mul_assoc, Units.inv_mul, one_mul]

end IsQuotient

/-- A meaning is the quotient of the two polynomials at the point. -/
theorem isQuotient_fraction [Algebra ℚ K] {σ : String → K} {t : Tree} {v : K}
    (h : Means (fun x => some (σ x)) t v) :
    IsQuotient v (aeval σ t.fraction.numerator) (aeval σ t.fraction.denominator) := by
  induction t generalizing v with
  | number a =>
    obtain ⟨q, hq, rfl⟩ := h
    simp [IsQuotient, Tree.fraction, hq]
  | var x =>
    cases h
    simp [IsQuotient, Tree.fraction]
  | unary op a => exact h.elim
  | binary op a b iha ihb =>
    cases op with
    | plus =>
      obtain ⟨u, v, ha, hb, rfl⟩ := h
      simpa [Tree.fraction] using (iha ha).plus (ihb hb)
    | minus =>
      obtain ⟨u, v, ha, hb, rfl⟩ := h
      simpa [Tree.fraction] using (iha ha).minus (ihb hb)
    | times =>
      obtain ⟨u, v, ha, hb, rfl⟩ := h
      simpa [Tree.fraction] using (iha ha).times (ihb hb)
    | div =>
      obtain ⟨u, v, ha, hb, hv, rfl⟩ := h
      simpa [Tree.fraction] using (iha ha).div hv (ihb hb)
    | power =>
      obtain ⟨n, u, k, rfl, ha, hn, hw⟩ := Means.exists_of_power h
      simp only [Tree.fraction, hn, Option.getD_some, Rat.num_intCast]
      cases hw with
      | nat u n => simpa [Fraction.power] using (iha ha).pow n
      | unit e k =>
        cases k with
        | ofNat n => simpa [Fraction.power] using (iha ha).pow n
        | negSucc n => simpa [Fraction.power, zpow_negSucc] using (iha ha).inv.pow (n + 1)
    | _ => exact h.elim

/-- Where the tree is defined, so is the fraction, and has the same value. -/
theorem fraction_value {t : Tree} (ht : t.isRational = true) {ρ : String → ℚ} {v : ℚ}
    (hv : t.exact .integral ρ = some v) :
    eval ρ t.fraction.denominator ≠ 0 ∧ t.fraction.value ρ = v := by
  obtain ⟨hunit, heq⟩ := isQuotient_fraction (Tree.means_of_exact ht hv)
  rw [aeval_eq_eval] at hunit heq
  exact ⟨hunit.ne_zero, (eq_div_of_mul_eq hunit.ne_zero heq).symm⟩

/-! ### Around a point -/

theorem fst_aeval_nearby (x : String) (ρ : String → ℚ) (p : MvPolynomial String ℚ) :
    (aeval (fun y => if y = x then inl (ρ y) + ε else (inl (ρ y) : ℚ[ε])) p).fst = eval ρ p := by
  induction p using MvPolynomial.induction_on with
  | C q => simp [algebraMap_eq_inl]
  | add p q hp hq => rw [map_add, fst_add, hp, hq, map_add]
  | mul_X p y hp =>
    rw [map_mul, fst_mul, hp, aeval_X, map_mul, eval_X]
    by_cases hy : y = x <;> simp [hy]

theorem snd_aeval_nearby (x : String) (ρ : String → ℚ) (p : MvPolynomial String ℚ) :
    (aeval (fun y => if y = x then inl (ρ y) + ε else (inl (ρ y) : ℚ[ε])) p).snd =
      eval ρ (pderiv x p) := by
  induction p using MvPolynomial.induction_on with
  | C q => simp [algebraMap_eq_inl]
  | add p q hp hq => rw [map_add, snd_add, hp, hq, map_add, map_add]
  | mul_X p y hp =>
    rw [map_mul, DualNumber.snd_mul, fst_aeval_nearby, hp, aeval_X, pderiv_mul, map_add, map_mul,
      map_mul, eval_X]
    by_cases hy : y = x
    · subst hy
      simp
      ring
    · rw [pderiv_X_of_ne hy]
      simp [hy]

/-- Around a point the tree changes with the partial derivative of its fraction. -/
theorem snd_eq_partialDerivative {t : Tree} {x : String} {ρ : String → ℚ} {w : ℚ[ε]}
    (h : Means (nearby x fun y => some (ρ y)) t w) :
    w.snd = (t.fraction.partialDerivative x).value ρ := by
  have h : Means (fun y => some (if y = x then inl (ρ y) + ε else (inl (ρ y) : ℚ[ε]))) t w := h
  obtain ⟨hunit, heq⟩ := isQuotient_fraction h
  have hfst := congrArg TrivSqZeroExt.fst heq
  have hsnd := congrArg TrivSqZeroExt.snd heq
  have hne := (isUnit_iff_isUnit_fst.mp hunit).ne_zero
  rw [fst_mul, fst_aeval_nearby, fst_aeval_nearby] at hfst
  rw [DualNumber.snd_mul, fst_aeval_nearby, snd_aeval_nearby, snd_aeval_nearby] at hsnd
  rw [fst_aeval_nearby] at hne
  rw [Fraction.value, Fraction.partialDerivative, eq_div_iff (by simpa using hne)]
  simp only [map_sub, map_mul, map_pow]
  rw [← hsnd, ← hfst]
  ring

end Reckon
