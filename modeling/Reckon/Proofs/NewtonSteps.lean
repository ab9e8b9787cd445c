import Mathlib.Algebra.Order.Field.Basic
import Mathlib.Tactic.FieldSimp
import Mathlib.Tactic.Linarith
import Mathlib.Tactic.NormNum
import Mathlib.Tactic.Positivity
import Mathlib.Tactic.Ring

/-!
# Newton's steps in whole units

A step from a guess `g` takes the nearest integer to `s ^ 2 / g`, the mean of both, and a half of
that up. Without the roundings the distance `g - s` to the root would become its square over `2 g`
(`sub_eq_sq_div`); the roundings add between `-13 / 50` and `19 / 25` of a unit (`IsStep`). For a
root of at least `10 ^ 50` units this halves large distances (`Within.halve`) and squares small ones
(`Within.square`), so seventeen steps bring the guess within a unit (`within_iterate`), and a guess
that a step leaves where it is lies there (`IsStep.within_of_eq`).
-/

namespace Reckon.Numeric

variable {K : Type} [Field K] [LinearOrder K] [IsStrictOrderedRing K] {s b x : K} {g h q : ℕ}

/-- A step of Newton's method towards `s`, with the error that rounding adds. -/
def IsStep (s : K) (g h : ℕ) : Prop :=
  -(13 / 50) ≤ h - s - (g - s) ^ 2 / (2 * g : ℕ) ∧ h - s - (g - s) ^ 2 / (2 * g : ℕ) ≤ 19 / 25

/-- The guess is at most a rounding error below the root, and at most `b` above it. -/
def Within (s b : K) (g : ℕ) : Prop :=
  -(13 / 50) ≤ g - s ∧ g - s ≤ b

/-- The mean of a guess and the number over it exceeds the root by the square of the distance over
twice the guess. -/
theorem sub_eq_sq_div (hg : (g : K) ≠ 0) :
    (s ^ 2 / g + g) / 2 - s = (g - s) ^ 2 / (2 * g : ℕ) := by
  push_cast
  field_simp
  ring

theorem isStep_of_nearest (hg : 0 < g) (hq : |q - s ^ 2 / g| ≤ 1 / 2 + 1 / 10 ^ 8) :
    IsStep s g ((q + g + 1) / 2) := by
  have hcast : (g : K) ≠ 0 := by exact_mod_cast hg.ne'
  obtain ⟨hlow, hhigh⟩ := abs_le.mp hq
  have hmean : (q : K) + g ≤ 2 * ((q + g + 1) / 2 : ℕ) ∧
      (2 : K) * ((q + g + 1) / 2 : ℕ) ≤ q + g + 1 := by
    constructor
    · exact_mod_cast (by omega : q + g ≤ 2 * ((q + g + 1) / 2))
    · exact_mod_cast (by omega : 2 * ((q + g + 1) / 2) ≤ q + g + 1)
  rw [IsStep, ← sub_eq_sq_div hcast]
  constructor <;> linarith

omit [IsStrictOrderedRing K] in
theorem Within.mono (hb : b ≤ x) (h : Within s b g) : Within s x g :=
  ⟨h.1, h.2.trans hb⟩

theorem sq_div_nonneg (s : K) (g : ℕ) : 0 ≤ ((g : K) - s) ^ 2 / (2 * g : ℕ) := by
  positivity

/-- A guess behind a step is at most a rounding error below the root. -/
theorem IsStep.low (h : IsStep s g q) : -(13 / 50) ≤ q - s := by
  linarith [h.1, sq_div_nonneg s g]

/-- A guess above the root is halfway to it behind a step. -/
theorem sq_div_le_half (hs : 0 ≤ s) (hle : s ≤ g) (hg : 0 < g) :
    ((g : K) - s) ^ 2 / (2 * g : ℕ) ≤ (g - s) / 2 := by
  have hpos : (0 : K) < g := by exact_mod_cast hg
  rw [div_le_div_iff₀ (by positivity) two_pos]
  push_cast
  nlinarith

/-- A guess at a distance `b` comes as close as the square of that. -/
theorem sq_div_le_sq (hg : 10 ^ 50 ≤ g) (hb : |g - s| ≤ b) :
    ((g : K) - s) ^ 2 / (2 * g : ℕ) ≤ b ^ 2 / (2 * 10 ^ 50) := by
  have hg' : (10 : K) ^ 50 ≤ g := by exact_mod_cast hg
  have hdouble : (2 : K) * 10 ^ 50 ≤ (2 * g : ℕ) := by
    push_cast
    linarith
  refine div_le_div₀ (sq_nonneg b) ?_ (by positivity) hdouble
  rw [← sq_abs]
  exact pow_le_pow_left₀ (abs_nonneg _) hb 2

/-- A guess within the reach of a step. -/
theorem Within.ten_pow_le (hs : 10 ^ 50 ≤ s) (h : Within s b g) : 10 ^ 50 ≤ g := by
  have hlow : (10 : K) ^ 50 < (g + 1 : ℕ) := by
    push_cast
    linarith [h.1]
  have hlow' : 10 ^ 50 < g + 1 := by exact_mod_cast hlow
  omega

theorem Within.abs_sub_le (hb : 1 ≤ b) (h : Within s b g) : |g - s| ≤ b := by
  rw [abs_le]
  exact ⟨by linarith [h.1], h.2⟩

section
variable (hs : 10 ^ 50 ≤ s) (hg : 10 ^ 50 ≤ g) (hstep : IsStep s g h)
include hs hg hstep

/-- Guesses stay in the range in which steps are taken. -/
theorem IsStep.le_ten_pow (hs' : s ≤ 10 ^ 51) (hg' : g ≤ 10 ^ 52) : h ≤ 10 ^ 52 := by
  have hgK : (10 : K) ^ 50 ≤ g := by exact_mod_cast hg
  have hgK' : (g : K) ≤ 10 ^ 52 := by exact_mod_cast hg'
  have hhigh := hstep.2
  have hle : (h : K) ≤ 10 ^ 52 := by
    rcases le_total s g with hle | hle
    · have := sq_div_le_half (by linarith : 0 ≤ s) hle (by omega)
      linarith
    · have hdistance : |(g : K) - s| ≤ 9 * 10 ^ 50 := by
        rw [abs_le]
        constructor <;> linarith
      have := sq_div_le_sq hg hdistance
      have hbound : ((9 : K) * 10 ^ 50) ^ 2 / (2 * 10 ^ 50) ≤ 41 * 10 ^ 50 := by norm_num
      linarith
  exact_mod_cast hle

theorem IsStep.first (hs' : s ≤ 10 ^ 51) (hg' : g ≤ 10 ^ 51) : Within s (41 * 10 ^ 50) h := by
  have hgK : (10 : K) ^ 50 ≤ g := by exact_mod_cast hg
  have hgK' : (g : K) ≤ 10 ^ 51 := by exact_mod_cast hg'
  have hdistance : |(g : K) - s| ≤ 9 * 10 ^ 50 := by
    rw [abs_le]
    constructor <;> linarith
  have := sq_div_le_sq hg hdistance
  have hbound : ((9 : K) * 10 ^ 50) ^ 2 / (2 * 10 ^ 50) ≤ 40.5 * 10 ^ 50 := by norm_num
  refine ⟨hstep.low, ?_⟩
  linarith [hstep.2]

theorem Within.halve (hb : 1 ≤ b) (hwithin : Within s b g) : Within s (b / 2 + 1) h := by
  refine ⟨hstep.low, ?_⟩
  rcases le_total s g with hle | hle
  · have := sq_div_le_half (by linarith : 0 ≤ s) hle (by omega)
    linarith [hstep.2, hwithin.2]
  · have hdistance : |(g : K) - s| ≤ 1 := by
      rw [abs_le]
      constructor <;> linarith [hwithin.1]
    have := sq_div_le_sq hg hdistance
    have hbound : (1 : K) ^ 2 / (2 * 10 ^ 50) ≤ 1 / 2 := by norm_num
    linarith [hstep.2]

end

theorem Within.square (hg : 10 ^ 50 ≤ g) (hstep : IsStep s g h) (hb : 1 ≤ b)
    (hwithin : Within s b g) : Within s (b ^ 2 / (2 * 10 ^ 50) + 19 / 25) h := by
  refine ⟨hstep.low, ?_⟩
  linarith [hstep.2, sq_div_le_sq hg (hwithin.abs_sub_le hb)]

/-- A step doubles the number of digits that are right. -/
theorem Within.double {m : ℕ} (hg : 10 ^ 50 ≤ g) (hstep : IsStep s g h) (hm : 2 * m < 50)
    (hwithin : Within s (10 ^ (50 - m)) g) : Within s (10 ^ (50 - 2 * m)) h := by
  refine (hwithin.square hg hstep (one_le_pow₀ (by norm_num))).mono ?_
  obtain ⟨k, hk⟩ : ∃ k, 50 - 2 * m = k + 1 := ⟨50 - 2 * m - 1, by omega⟩
  have hsq : ((10 : K) ^ (50 - m)) ^ 2 / (2 * 10 ^ 50) = 10 ^ (50 - 2 * m) / 2 := by
    rw [← pow_mul, show (50 - m) * 2 = 50 + (50 - 2 * m) by omega, pow_add]
    field_simp
  have hlarge : (1 : K) ≤ 10 ^ k := one_le_pow₀ (by norm_num)
  rw [hsq, hk, pow_succ]
  linarith

/-- A guess within a unit stays there. -/
theorem Within.stays (hg : 10 ^ 50 ≤ g) (hstep : IsStep s g h) (hwithin : Within s (39 / 50) g) :
    Within s (39 / 50) h :=
  ((hwithin.mono (by norm_num)).square hg hstep le_rfl).mono (by norm_num)

/-- A guess that a step leaves where it is lies within a unit. -/
theorem IsStep.within_of_eq (hs : 10 ^ 50 ≤ s) (hg : 10 ^ 50 ≤ g) (hstep : IsStep s g g) :
    Within s (39 / 50) g := by
  refine ⟨hstep.low, ?_⟩
  have hclose : (g : K) - s ≤ 2 := by
    rcases le_total s g with hle | hle
    · have := sq_div_le_half (by linarith : 0 ≤ s) hle (by omega)
      linarith [hstep.2]
    · linarith
  have hdistance : |(g : K) - s| ≤ 2 := by
    rw [abs_le]
    exact ⟨by linarith [hstep.low], hclose⟩
  have hbound : (2 : K) ^ 2 / (2 * 10 ^ 50) ≤ 1 / 50 := by norm_num
  linarith [hstep.2, sq_div_le_sq hg hdistance]

/-- The number over a guess within a unit of the root is about as far on the other side. -/
theorem Within.quotient_bounds (hg : 10 ^ 50 ≤ g) (hwithin : Within s (39 / 50) g) :
    g - 8 / 5 ≤ s ^ 2 / g ∧ s ^ 2 / g ≤ g + 11 / 20 := by
  have hgK : (10 : K) ^ 50 ≤ g := by exact_mod_cast hg
  have hpos : (0 : K) < g := by linarith
  obtain ⟨hlow, hhigh⟩ := hwithin
  rw [le_div_iff₀ hpos, div_le_iff₀ hpos]
  constructor <;> nlinarith

/-! ### All steps -/

section
variable {f : ℕ → ℕ} (hs : 10 ^ 50 ≤ s) (hf : ∀ g, 10 ^ 50 ≤ g → IsStep s g (f g))
include hs hf

theorem Within.halve_iterate {c : K} (hc : 0 ≤ c) (k : ℕ) (h : Within s (2 ^ k * c + 2) g) :
    Within s (c + 2) (f^[k] g) := by
  induction k generalizing g with
  | zero => simpa using h
  | succ k ih =>
    have hg := h.ten_pow_le hs
    refine ih ((h.halve hs hg (hf g hg) ?_).mono ?_)
    · have := mul_nonneg (pow_nonneg zero_le_two (k + 1)) hc
      linarith
    · rw [pow_succ]
      linarith

theorem Within.double_iterate (k : ℕ) (hk : 2 ^ k < 50) (h : Within s (10 ^ (50 - 1)) g) :
    Within s (10 ^ (50 - 2 ^ k)) (f^[k] g) := by
  induction k with
  | zero => exact h
  | succ k ih =>
    rw [pow_succ] at hk
    have hprevious := ih (by omega)
    have hg := hprevious.ten_pow_le hs
    rw [Function.iterate_succ_apply', pow_succ, mul_comm]
    exact hprevious.double hg (hf _ hg) (by omega)

theorem Within.stays_iterate (k : ℕ) (h : Within s (39 / 50) g) :
    Within s (39 / 50) (f^[k] g) := by
  induction k with
  | zero => exact h
  | succ k ih =>
    have hg := ih.ten_pow_le hs
    rw [Function.iterate_succ_apply']
    exact ih.stays hg (hf _ hg)

/-- Seventeen steps or more bring the guess within a unit. -/
theorem within_iterate (hs' : s ≤ 10 ^ 51) (hg : 10 ^ 50 ≤ g) (hg' : g ≤ 10 ^ 51) {n : ℕ}
    (hn : 17 ≤ n) : Within s (39 / 50) (f^[n] g) := by
  have hfirst := (hf g hg).first hs hg hs' hg'
  -- ten halves
  have hhalf : Within s (10 ^ (50 - 1)) (f^[10] (f g)) := by
    have h := hfirst.mono (x := 2 ^ 10 * (41 * 10 ^ 50 / 2 ^ 10) + 2) (by norm_num)
    exact (h.halve_iterate hs hf (by positivity) 10).mono (by norm_num)
  -- five squares
  have hdouble := hhalf.double_iterate hs hf 5 (by decide)
  have hrange := hdouble.ten_pow_le hs
  have hlast : Within s (39 / 50) (f (f^[5] (f^[10] (f g)))) :=
    (hdouble.square hrange (hf _ hrange) (one_le_pow₀ (by norm_num))).mono (by norm_num)
  obtain ⟨k, rfl⟩ := Nat.exists_eq_add_of_le' hn
  have hsplit : f^[k + 17] g = f^[k] (f (f^[5] (f^[10] (f g)))) := by
    rw [Function.iterate_add_apply, ← Function.iterate_succ_apply' f 5,
      ← Function.iterate_add_apply f 6 10, ← Function.iterate_succ_apply f 16]
  rw [hsplit]
  exact hlast.stays_iterate hs hf k

end

end Reckon.Numeric
