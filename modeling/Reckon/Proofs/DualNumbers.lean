import Mathlib.Algebra.DualNumber
import Mathlib.Algebra.Module.Rat
import Mathlib.Tactic.LinearCombination
import Reckon.Proofs.Meaning

/-!
# Meaning in the dual numbers

Where the variable `x` has the value `u + ε`, a tree means its value and, as the coefficient of `ε`,
the value of its derivative. Homomorphisms carry meanings along (`Means.map`), the real part among
them, and what means something at a point does so around it (`Means.exists_nearby`).
-/

namespace Reckon

open DualNumber TrivSqZeroExt
open Reckon.Tree (number var unary binary)

variable {K L : Type} [CommRing K] [CommRing L]

/-! ### Powers -/

namespace IsPower
variable {u w : K[ε]} {k : ℤ}

theorem fst (h : IsPower u k w) : IsPower u.fst k w.fst :=
  h.map (fstHom ℤ K K).toRingHom

/-- The rule for powers of a unit. -/
theorem snd_zpow (u : K[ε]ˣ) (a : Kˣ) (ha : (u : K[ε]).fst = a) (k : ℤ) :
    ((u ^ k : K[ε]ˣ) : K[ε]).snd = (u : K[ε]).snd * (k * (a ^ (k - 1) : Kˣ)) := by
  have hfst : ∀ j : ℤ, ((u ^ j : K[ε]ˣ) : K[ε]).fst = (a ^ j : Kˣ) := by
    intro j
    have hpower : IsPower (a : K) j ((u ^ j : K[ε]ˣ) : K[ε]).fst := ha ▸ (IsPower.unit u j).fst
    exact hpower.unique (.unit a j)
  have hstep : ∀ j : ℤ, ((u ^ (j + 1) : K[ε]ˣ) : K[ε]).snd =
      (a ^ j : Kˣ) * (u : K[ε]).snd + ((u ^ j : K[ε]ˣ) : K[ε]).snd * a := by
    intro j
    rw [zpow_add_one, Units.val_mul, DualNumber.snd_mul, hfst, ha]
  have hpow : ∀ j : ℤ, ((a ^ (j + 1) : Kˣ) : K) = (a ^ j : Kˣ) * a := by
    intro j
    rw [zpow_add_one, Units.val_mul]
  induction k with
  | zero => simp
  | succ n ih =>
    rw [hstep, ih]
    have := hpow (n - 1)
    rw [sub_add_cancel] at this
    rw [add_sub_cancel_right, this]
    push_cast
    ring
  | pred n ih =>
    have h := hstep (-n - 1)
    have h' := hpow (-n - 1 - 1)
    rw [sub_add_cancel] at h h'
    rw [ih, h'] at h
    refine a.isUnit.mul_right_cancel ?_
    push_cast at h ⊢
    linear_combination -h

/-- The rule for powers. -/
theorem exists_snd (h : IsPower u k w) (hk : k ≠ 0) :
    ∃ l, IsPower u.fst (k - 1) l ∧ w.snd = u.snd * (k * l) := by
  cases h with
  | nat u n =>
    obtain ⟨m, rfl⟩ := Nat.exists_eq_succ_of_ne_zero (by exact_mod_cast hk)
    refine ⟨u.fst ^ m, ?_, ?_⟩
    · simpa using IsPower.nat u.fst m
    · rw [TrivSqZeroExt.snd_pow]
      simp
      ring
  | unit u k =>
    obtain ⟨a, ha⟩ := isUnit_iff_isUnit_fst.mp u.isUnit
    exact ⟨_, ha ▸ .unit a (k - 1), snd_zpow u a ha.symm k⟩

theorem snd_eq_zero_of_zero (h : IsPower u 0 w) : w.snd = 0 := by
  rw [← (zero u).unique h]
  exact snd_one

/-- The powers of a constant are constant. -/
theorem snd_eq_zero (h : IsPower u k w) (hu : u.snd = 0) : w.snd = 0 := by
  by_cases hk : k = 0
  · subst hk
    exact h.snd_eq_zero_of_zero
  · obtain ⟨l, -, hl⟩ := h.exists_snd hk
    rw [hl, hu, zero_mul]

/-- A power of the real part is the real part of a power. -/
theorem exists_of_fst {v : K} (h : IsPower u.fst k v) : ∃ w, IsPower u k w ∧ w.fst = v := by
  generalize hu : u.fst = u' at h
  cases h with
  | nat u' n => exact ⟨u ^ n, .nat u n, by rw [fst_pow, hu]⟩
  | unit a k =>
    obtain ⟨c, rfl⟩ := isUnit_iff_isUnit_fst.mpr (hu ▸ a.isUnit)
    have hpower : IsPower (a : K) k ((c ^ k : K[ε]ˣ) : K[ε]).fst := hu ▸ (unit c k).fst
    exact ⟨_, unit c k, hpower.unique (unit a k)⟩

end IsPower

/-! ### Meanings -/

variable [Algebra ℚ K] [Algebra ℚ L] {ρ : String → Option K} {t : Tree} {v : K}

namespace Means

/-- A homomorphism carries meanings along. -/
theorem map (f : K →ₐ[ℚ] L) (h : Means ρ t v) : Means (fun x => (ρ x).map f) t (f v) := by
  induction t generalizing v with
  | number a =>
    obtain ⟨q, hq, rfl⟩ := h
    exact ⟨q, hq, f.commutes q⟩
  | var x => exact congrArg (Option.map f) h
  | unary op a => exact h.elim
  | binary op a b iha ihb =>
    cases op with
    | plus =>
      obtain ⟨u, v, ha, hb, rfl⟩ := h
      exact ⟨f u, f v, iha ha, ihb hb, map_add f u v⟩
    | minus =>
      obtain ⟨u, v, ha, hb, rfl⟩ := h
      exact ⟨f u, f v, iha ha, ihb hb, map_sub f u v⟩
    | times =>
      obtain ⟨u, v, ha, hb, rfl⟩ := h
      exact ⟨f u, f v, iha ha, ihb hb, map_mul f u v⟩
    | div =>
      obtain ⟨u, v, ha, hb, hv, rfl⟩ := h
      exact ⟨_, f v, iha ha, ihb hb, hv.map f, (map_mul f ..).symm⟩
    | power =>
      obtain ⟨n, u, k, rfl, ha, hn, hw⟩ := exists_of_power h
      exact (iha ha).power hn (hw.map (f : K →+* L))
    | _ => exact h.elim

end Means

/-- The values around a point: that of `x` moves, the others stay. -/
def nearby (x : String) (ρ : String → Option K) : String → Option K[ε] :=
  fun y => (ρ y).map fun u => if y = x then inl u + ε else inl u

theorem fst_nearby (x : String) (ρ : String → Option K) (y : String) :
    (nearby x ρ y).map (fstHom ℚ K K) = ρ y := by
  unfold nearby
  cases ρ y with
  | none => rfl
  | some u => by_cases hy : y = x <;> simp [hy]

namespace Means
variable {x : String} {w : K[ε]}

/-- The meaning around a point is one at the point. -/
theorem fst (h : Means (nearby x ρ) t w) : Means ρ t w.fst := by
  have := h.map (fstHom ℚ K K)
  rwa [funext (fst_nearby x ρ)] at this

/-- What means something at a point does so around it. -/
theorem exists_nearby (x : String) (h : Means ρ t v) :
    ∃ w : K[ε], Means (nearby x ρ) t w ∧ w.fst = v := by
  induction t generalizing v with
  | number a =>
    obtain ⟨q, hq, rfl⟩ := h
    exact ⟨_, .number hq, by rw [algebraMap_eq_inl', fst_inl]⟩
  | var y =>
    have hy : ρ y = some v := h
    refine ⟨if y = x then inl v + ε else inl v, ?_, by split <;> simp⟩
    rw [Means, nearby, hy]
    rfl
  | unary op a => exact h.elim
  | binary op a b iha ihb =>
    cases op with
    | plus =>
      obtain ⟨_, _, ha, hb, rfl⟩ := h
      obtain ⟨u, hu, rfl⟩ := iha ha
      obtain ⟨v, hv, rfl⟩ := ihb hb
      exact ⟨u + v, hu.plus hv, rfl⟩
    | minus =>
      obtain ⟨_, _, ha, hb, rfl⟩ := h
      obtain ⟨u, hu, rfl⟩ := iha ha
      obtain ⟨v, hv, rfl⟩ := ihb hb
      exact ⟨u - v, hu.minus hv, rfl⟩
    | times =>
      obtain ⟨_, _, ha, hb, rfl⟩ := h
      obtain ⟨u, hu, rfl⟩ := iha ha
      obtain ⟨v, hv, rfl⟩ := ihb hb
      exact ⟨u * v, hu.times hv, rfl⟩
    | div =>
      obtain ⟨_, _, ha, hb, hunit, hw⟩ := h
      obtain ⟨u, hu, rfl⟩ := iha ha
      obtain ⟨v', hv, rfl⟩ := ihb hb
      obtain ⟨c, rfl⟩ := isUnit_iff_isUnit_fst.mpr hunit
      refine ⟨u * (c⁻¹ : K[ε]ˣ), Means.div (hu.of_eq ?_) hv c.isUnit, ?_⟩
      · rw [mul_assoc, Units.inv_mul, mul_one]
      · refine hunit.mul_right_cancel ?_
        rw [← fst_mul, mul_assoc, Units.inv_mul, mul_one, hw]
    | power =>
      obtain ⟨n, u', k, rfl, ha, hn, hw⟩ := exists_of_power h
      obtain ⟨u, hu, rfl⟩ := iha ha
      obtain ⟨w, hpower, hfst⟩ := hw.exists_of_fst
      exact ⟨w, hu.power hn hpower, hfst⟩
    | _ => exact h.elim

end Means

end Reckon
