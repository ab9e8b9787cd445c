import Reckon.Proofs.RealMeaning

/-!
# Real values of all trees

`Tree.real? I ρ t` is the value of `t` in the real numbers, where there is one: every root is the
principal one, every inverse function has its values on the principal branch, and what the operators
without a rule of their own stand for is left to `I`. A power is defined where its base is positive,
and for other bases where the exponent is an integer (`PowerIs`). When a power of a power `MergesAt`
its base, it is the power with the product of the exponents.
-/

namespace Reckon

open Real
open Reckon.Tree (number var unary binary)

attribute [local instance] atLeastTwo_two

/-- What the other operators stand for: any functions, which may be partial. -/
structure RealInterpretation where
  unary : Unary → ℝ → Option ℝ
  binary : Binary → ℝ → ℝ → Option ℝ
  deriving Inhabited

/-- Roots, exponentials, circular functions and their inverses, as far as there are rules for
them. -/
def Unary.isElementary : Unary → Bool
  | sqrt | sin | cos | tan | cotan | asin | acos | atan | ln | exp => true
  | _ => false

open Classical in
/-- The value of an operator of one operand. The inverse cotangent is a right angle at zero. -/
noncomputable def Unary.real? (I : RealInterpretation) (op : Unary) (u : ℝ) : Option ℝ :=
  if op = acotan then some (if u = 0 then π / 2 else arctan (1 / u))
  else if op.isElementary then if u ∈ op.domain then some (op.real u) else none
  else I.unary op u

open Classical in
/-- The value of an operator of two operands. -/
noncomputable def Binary.real? (I : RealInterpretation) (op : Binary) (u v : ℝ) : Option ℝ :=
  match op with
  | .plus | .minus | .times | .div | .power =>
    if op.IsDefinedAt u v then some (op.real u v) else none
  | op => I.binary op u v

/-- The value of a tree, where all its operators have one. -/
noncomputable def Tree.real? (I : RealInterpretation) (ρ : String → ℝ) : Tree → Option ℝ
  | number a => a.toRat?.map fun q : ℚ => (q : ℝ)
  | var x => some (ρ x)
  | unary op a => do op.real? I (← a.real? I ρ)
  | binary op a b => do op.real? I (← a.real? I ρ) (← b.real? I ρ)

/-! ### Values of operators -/

theorem Unary.real?_iff {I : RealInterpretation} {op : Unary} {u w : ℝ}
    (hop : op.isElementary = true) : op.real? I u = some w ↔ u ∈ op.domain ∧ w = op.real u := by
  have hne : op ≠ acotan := by
    rintro rfl
    cases hop
  simp [real?, hne, hop, eq_comm]

@[simp] theorem Unary.real?_acotan {I : RealInterpretation} {u : ℝ} :
    acotan.real? I u = some (if u = 0 then π / 2 else arctan (1 / u)) :=
  if_pos rfl

namespace Binary
variable {I : RealInterpretation} {u v w : ℝ}

@[simp] theorem real?_plus : plus.real? I u v = some (u + v) :=
  if_pos trivial

@[simp] theorem real?_minus : minus.real? I u v = some (u - v) :=
  if_pos trivial

@[simp] theorem real?_times : times.real? I u v = some (u * v) :=
  if_pos trivial

theorem real?_div (hv : v ≠ 0) : div.real? I u v = some (u / v) :=
  if_pos hv

theorem real?_div_iff : div.real? I u v = some w ↔ v ≠ 0 ∧ w * v = u := by
  by_cases hv : v = 0
  · simp [real?, IsDefinedAt, hv]
  · simp [real?, IsDefinedAt, real, hv, div_eq_iff, @eq_comm _ u]

end Binary

/-! ### Powers -/

/-- The power of `u` with the exponent `y` is defined and is `w`. -/
def PowerIs (u y w : ℝ) : Prop :=
  Binary.power.IsDefinedAt u y ∧ u ^ y = w

theorem Binary.real?_power_iff {I : RealInterpretation} {u y w : ℝ} :
    power.real? I u y = some w ↔ PowerIs u y w := by
  simp [real?, real, PowerIs]

namespace PowerIs
variable {u v w w' y y' : ℝ}

theorem of_pos (hu : 0 < u) (y : ℝ) : PowerIs u y (u ^ y) :=
  ⟨.inl hu, rfl⟩

theorem intCast {k : ℤ} (hk : u ≠ 0 ∨ 0 ≤ k) : PowerIs u k (u ^ k) :=
  ⟨.inr (.inr ⟨k, rfl, hk⟩), rpow_intCast u k⟩

theorem neg_one_odd {k : ℤ} (hk : Odd k) : PowerIs (-1) (k : ℚ) (-1) := by
  simpa [hk.neg_one_zpow] using intCast (u := -1) (k := k) (.inl (by norm_num))

theorem neg_one_even {k : ℤ} (hk : Even k) : PowerIs (-1) (k : ℚ) 1 := by
  simpa [hk.neg_one_zpow] using intCast (u := -1) (k := k) (.inl (by norm_num))

theorem unique (h : PowerIs u y w) (h' : PowerIs u y w') : w = w' :=
  h.2.symm.trans h'.2

theorem one (u : ℝ) : PowerIs u 1 u := by
  simpa using intCast (u := u) (k := 1) (.inr zero_le_one)

theorem one_iff : PowerIs u 1 w ↔ u = w := by
  constructor
  · intro h
    exact (one u).unique h
  · rintro rfl
    exact one u

theorem eq_one (h : PowerIs u 0 w) : w = 1 := by
  rw [← h.2, rpow_zero]

theorem zero (u : ℝ) : PowerIs u 0 1 := by
  simpa using intCast (u := u) (k := 0) (.inr le_rfl)

theorem of_one (h : PowerIs 1 y w) : w = 1 := by
  rw [← h.2, one_rpow]

theorem zero_of_pos (hy : 0 < y) : PowerIs 0 y 0 :=
  ⟨.inr (.inl ⟨rfl, hy⟩), zero_rpow hy.ne'⟩

/-- A power of zero is zero, or the exponent is zero. -/
theorem of_zero (h : PowerIs 0 y w) : 0 < y ∧ w = 0 ∨ y = 0 ∧ w = 1 := by
  obtain ⟨hu | ⟨-, hy⟩ | ⟨k, rfl, hk⟩, rfl⟩ := h
  · exact absurd hu (lt_irrefl 0)
  · exact .inl ⟨hy, zero_rpow hy.ne'⟩
  · rcases (hk.resolve_left fun h => h rfl).eq_or_lt with rfl | hk
    · exact .inr ⟨Int.cast_zero, by simp⟩
    · have hk : (0 : ℝ) < k := by exact_mod_cast hk
      exact .inl ⟨hk, zero_rpow hk.ne'⟩

/-- The exponent of a negative base is an integer. -/
theorem of_neg (hu : u < 0) (h : PowerIs u y w) : ∃ k : ℤ, y = k ∧ w = u ^ k := by
  obtain ⟨hpos | ⟨hzero, -⟩ | ⟨k, rfl, -⟩, rfl⟩ := h
  · exact absurd hpos hu.not_gt
  · exact absurd hzero hu.ne
  · exact ⟨k, rfl, rpow_intCast u k⟩

/-- The exponents of a product of powers are added. -/
theorem mul (h : PowerIs u y w) (h' : PowerIs u y' w') : PowerIs u (y + y') (w * w') := by
  rcases lt_trichotomy u 0 with hu | rfl | hu
  · obtain ⟨k, rfl, rfl⟩ := h.of_neg hu
    obtain ⟨k', rfl, rfl⟩ := h'.of_neg hu
    rw [← zpow_add₀ hu.ne]
    exact_mod_cast intCast (.inl hu.ne)
  · rcases h.of_zero with ⟨hy, rfl⟩ | ⟨rfl, rfl⟩
    · have hy' : 0 ≤ y' := h'.of_zero.elim (fun h => h.1.le) fun h => h.1.ge
      rw [zero_mul]
      exact zero_of_pos (by linarith)
    · rwa [zero_add, one_mul]
  · rw [← h.2, ← h'.2, ← rpow_add hu]
    exact of_pos hu _

end PowerIs

/-! ### Powers of powers -/

/-- Where the power of `z` with the exponent `m` has a value, its own power with the exponent `n`
is that of `z` with the product of the exponents. -/
def MergesAt (z m n : ℝ) : Prop :=
  0 ≤ z ∨ (∃ k : ℤ, n = k) ∨ ∃ k : ℤ, m * n = 2 * k

theorem PowerIs.comp {z u w m n : ℝ} (hz : MergesAt z m n) (hu : PowerIs z m u)
    (hw : PowerIs u n w) : PowerIs z (m * n) w := by
  rcases lt_trichotomy z 0 with hneg | rfl | hpos
  · obtain ⟨j, rfl, rfl⟩ := hu.of_neg hneg
    rcases hz with hz | ⟨k, rfl⟩ | ⟨k, hk⟩
    · exact absurd hz hneg.not_ge
    · have hpower : w = z ^ (j * k) := by rw [← hw.2, rpow_intCast, zpow_mul]
      rw [hpower]
      exact_mod_cast PowerIs.intCast (.inl hneg.ne)
    · -- an exponent that is even takes the sign away
      have hne : z ^ j ≠ 0 := zpow_ne_zero j hneg.ne
      rcases lt_or_gt_of_ne hne with hlt | hgt
      · obtain ⟨l, rfl, rfl⟩ := hw.of_neg hlt
        rw [← zpow_mul]
        exact_mod_cast PowerIs.intCast (.inl hneg.ne)
      · have habs : z ^ j = |z| ^ (j : ℝ) := by
          rw [rpow_intCast, ← abs_zpow, abs_of_pos hgt]
        have hpower : w = z ^ (2 * k) := by
          rw [← hw.2, habs, ← rpow_mul (abs_nonneg z), hk]
          have hcast : (2 * k : ℝ) = ((2 * k : ℤ) : ℝ) := by push_cast; rfl
          rw [hcast, rpow_intCast, zpow_mul, zpow_mul]
          congr 1
          exact sq_abs z
        rw [hpower, hk]
        exact_mod_cast PowerIs.intCast (.inl hneg.ne)
  · rcases hu.of_zero with ⟨hm, rfl⟩ | ⟨rfl, rfl⟩
    · rcases hw.of_zero with ⟨hn, rfl⟩ | ⟨rfl, rfl⟩
      · exact zero_of_pos (mul_pos hm hn)
      · rw [mul_zero]
        exact PowerIs.zero 0
    · rw [hw.of_one, zero_mul]
      exact PowerIs.zero 0
  · rw [← hu.2] at hw
    rw [← hw.2, ← rpow_mul hpos.le]
    exact of_pos hpos _

/-- The square root is the power with the exponent one half. -/
theorem PowerIs.sqrt {u : ℝ} (hu : 0 ≤ u) : PowerIs u (1 / 2) √u := by
  rcases hu.eq_or_lt with rfl | hu
  · rw [sqrt_zero]
    exact zero_of_pos (by norm_num)
  · rw [sqrt_eq_rpow]
    exact of_pos hu _

end Reckon
