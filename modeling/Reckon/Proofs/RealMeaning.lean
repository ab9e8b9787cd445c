import Mathlib.Analysis.SpecialFunctions.Pow.Real
import Reckon.Proofs.Gives
import Reckon.Proofs.RealFunctions

/-!
# The real value of a tree

`Tree.real ρ t` is the value of `t` in the real numbers when the variables have the values `ρ`. The
tree `IsDefined` where every operand lies in the domain of its operator. It `IsInterior` where every
operand lies inside the domain and every base of a power is positive.

The rules do not keep the second of these: they make squares of bases of any sign. `Meets` says in
three grades how far a tree is inside the domains, and `Has ρ g t w` that `t` meets the grade `g`
and has the value `w`; in every grade this is a meaning of rational functions.
-/

namespace Reckon

open Reckon.Tree (number var unary binary)

namespace Binary

/-- The function that an operator stands for. -/
noncomputable def real : Binary → ℝ → ℝ → ℝ
  | plus, u, v => u + v
  | minus, u, v => u - v
  | times, u, v => u * v
  | div, u, v => u / v
  | power, u, v => u ^ v
  | log, u, v => Real.log u / Real.log v
  | _, _, _ => 0

/-- Where the function is defined; nowhere for operators that have no derivative of interest. -/
def IsDefinedAt : Binary → ℝ → ℝ → Prop
  | plus, _, _ | minus, _, _ | times, _, _ => True
  | div, _, v => v ≠ 0
  | power, u, v => 0 < u ∨ u = 0 ∧ 0 < v ∨ ∃ k : ℤ, v = k ∧ (u ≠ 0 ∨ 0 ≤ k)
  | log, u, v => 0 < u ∧ 0 < v ∧ Real.log v ≠ 0
  | _, _, _ => False

/-- Inside the domain; the base of a power is positive. -/
def IsInteriorAt (op : Binary) (u v : ℝ) : Prop :=
  op.IsDefinedAt u v ∧ (op = power → 0 < u)

end Binary

/-- How far a tree is inside the domains of its operators. -/
inductive Grade where
  /-- Every operand is inside, and every base of a power is positive. -/
  | interior
  /-- Functions are applied to trees of the first grade, which are joined by sums, products,
  quotients and integer powers. -/
  | differentiable
  /-- Every operand is in the domain; a power is of the first grade or has an integer as the
  exponent. -/
  | defined

namespace Tree

variable (ρ : String → ℝ)

noncomputable def real : Tree → ℝ
  | number a => (a.toRat?.getD 0 : ℚ)
  | var x => ρ x
  | unary op a => op.real a.real
  | binary op a b => op.real a.real b.real

def IsDefined : Tree → Prop
  | number a => a.toRat?.isSome
  | var _ => True
  | unary op a => a.IsDefined ∧ a.real ρ ∈ op.domain
  | binary op a b => a.IsDefined ∧ b.IsDefined ∧ op.IsDefinedAt (a.real ρ) (b.real ρ)

def IsInterior : Tree → Prop
  | number a => a.toRat?.isSome
  | var _ => True
  | unary op a => a.IsInterior ∧ op.IsInteriorAt (a.real ρ)
  | binary op a b => a.IsInterior ∧ b.IsInterior ∧ op.IsInteriorAt (a.real ρ) (b.real ρ)

/-- An exponent that is written as an integer, and for which the power of `u` is defined. -/
def IsExponentOf (u : ℝ) (t : Tree) : Prop :=
  ∃ n, ∃ k : ℤ, t = number n ∧ n.toRat? = some (k : ℚ) ∧ (u ≠ 0 ∨ 0 ≤ k)

def Meets : Grade → Tree → Prop
  | _, number a => a.toRat?.isSome
  | _, var _ => True
  | .defined, unary op a => Meets .defined a ∧ a.real ρ ∈ op.domain
  | _, unary op a => Meets .interior a ∧ op.IsInteriorAt (a.real ρ)
  | g, binary op a b =>
    match op with
    | .plus | .minus | .times => Meets g a ∧ Meets g b
    | .div => Meets g a ∧ Meets g b ∧ b.real ρ ≠ 0
    | .power =>
      (Meets .interior a ∧ Meets .interior b ∧ 0 < a.real ρ) ∨
        (g ≠ .interior ∧ Meets g a ∧ b.IsExponentOf (a.real ρ))
    | .log =>
      Meets .interior a ∧ Meets .interior b ∧ Binary.log.IsDefinedAt (a.real ρ) (b.real ρ)
    | _ => False

/-- The tree meets the grade and has the value. -/
def Has (g : Grade) (t : Tree) (w : ℝ) : Prop :=
  t.Meets ρ g ∧ t.real ρ = w

variable {ρ} {g g' : Grade} {a b s t : Tree} {op : Unary} {u w : ℝ}

theorem real_number {c : Decimal} {q : ℚ} (h : c.toRat? = some q) : (number c).real ρ = q := by
  rw [real, h]
  rfl

theorem real_integerPower {n : Decimal} {k : ℤ} (h : n.toRat? = some (k : ℚ)) :
    (binary .power a (number n)).real ρ = a.real ρ ^ k := by
  rw [real, real_number h, Binary.real, Rat.cast_intCast, Real.rpow_intCast]

theorem IsExponentOf.real {b : Tree} (h : b.IsExponentOf u) :
    ∃ k : ℤ, b.real ρ = k ∧ (u ≠ 0 ∨ 0 ≤ k) := by
  obtain ⟨n, k, rfl, hn, hk⟩ := h
  exact ⟨k, (real_number hn).trans (by norm_cast), hk⟩

theorem isInterior_iff : t.IsInterior ρ ↔ t.Meets ρ .interior := by
  induction t with
  | number a => exact Iff.rfl
  | var x => exact Iff.rfl
  | unary op a ih => exact and_congr_left fun _ => ih
  | binary op a b iha ihb =>
    rw [IsInterior, iha, ihb, Binary.IsInteriorAt]
    cases op with
    | power =>
      constructor
      · rintro ⟨ha, hb, -, hpos⟩
        exact .inl ⟨ha, hb, hpos rfl⟩
      · rintro (⟨ha, hb, hpos⟩ | ⟨hne, -⟩)
        · exact ⟨ha, hb, .inl hpos, fun _ => hpos⟩
        · exact absurd rfl hne
    | _ => simp [Meets, Binary.IsDefinedAt]

namespace Meets

theorem unary_iff (hg : g ≠ .defined) :
    (unary op a).Meets ρ g ↔ a.Meets ρ .interior ∧ op.IsInteriorAt (a.real ρ) := by
  cases g with
  | interior | differentiable => exact Iff.rfl
  | defined => exact absurd rfl hg

/-- The first grade is the strictest, the third the mildest. -/
theorem mono (h : t.Meets ρ g) (hg : g = .interior ∨ g' = .defined) : t.Meets ρ g' := by
  induction t generalizing g g' with
  | number a => exact h
  | var x => exact h
  | unary op a ih =>
    have hinterior : g ≠ .defined → a.Meets ρ .interior ∧ op.IsInteriorAt (a.real ρ) :=
      fun hne => (unary_iff hne).mp h
    cases g' with
    | interior | differentiable =>
      exact hinterior (by rcases hg with rfl | hg <;> simp_all)
    | defined =>
      by_cases hne : g = .defined
      · subst hne
        exact h
      · obtain ⟨ha, hop⟩ := hinterior hne
        exact ⟨ih ha (.inl rfl), interior_subset hop.1⟩
  | binary op a b iha ihb =>
    cases op with
    | plus | minus | times => exact ⟨iha h.1 hg, ihb h.2 hg⟩
    | div => exact ⟨iha h.1 hg, ihb h.2.1 hg, h.2.2⟩
    | power =>
      rcases h with h | ⟨hne, ha, hb⟩
      · exact .inl h
      · have hg' : g' = .defined := hg.resolve_left hne
        exact .inr ⟨by simp [hg'], iha ha hg, hb⟩
    | log => exact h
    | _ => exact h.elim

theorem exists_exponent {n : Decimal} (h : (binary .power a (number n)).Meets ρ g) :
    ∃ q, n.toRat? = some q := by
  rcases h with h | ⟨-, -, n', k, heq, hn, -⟩
  · exact Option.isSome_iff_exists.mp h.2.1
  · cases heq
    exact ⟨k, hn⟩

theorem isDefined (h : t.Meets ρ g) : t.IsDefined ρ := by
  replace h : t.Meets ρ .defined := h.mono (.inr rfl)
  induction t with
  | number a => exact h
  | var x => exact h
  | unary op a ih => exact ⟨ih h.1, h.2⟩
  | binary op a b iha ihb =>
    cases op with
    | plus | minus | times => exact ⟨iha h.1, ihb h.2, trivial⟩
    | div => exact ⟨iha h.1, ihb h.2.1, h.2.2⟩
    | power =>
      rcases h with ⟨ha, hb, hpos⟩ | ⟨-, ha, hb⟩
      · exact ⟨iha (ha.mono (.inl rfl)), ihb (hb.mono (.inl rfl)), .inl hpos⟩
      · obtain ⟨n, k, rfl, hn, -⟩ := id hb
        exact ⟨iha ha, ihb (by simp [Meets, hn]), .inr (.inr hb.real)⟩
    | log => exact ⟨iha (h.1.mono (.inl rfl)), ihb (h.2.1.mono (.inl rfl)), h.2.2⟩
    | _ => exact h.elim

end Meets

/-! ### Trees that are the same -/

theorem real_of_same (h : t.same s = true) : t.real ρ = s.real ρ := by
  induction t generalizing s with
  | number a =>
    cases s with
    | number b => rw [real, real, Decimal.toRat?_eq_of_same h]
    | var | unary | binary => cases h
  | var x =>
    cases s with
    | var y =>
      obtain rfl : x = y := by simpa [same] using h
      rfl
    | number | unary | binary => cases h
  | unary op a ih =>
    cases s with
    | unary op' a' =>
      rw [same, Bool.and_eq_true, decide_eq_true_eq] at h
      rw [real, real, h.1, ih h.2]
    | number | var | binary => cases h
  | binary op a b iha ihb =>
    cases s with
    | binary op' a' b' =>
      rw [same, Bool.and_eq_true, Bool.and_eq_true, decide_eq_true_eq] at h
      rw [real, real, h.1.1, iha h.1.2, ihb h.2]
    | number | var | unary => cases h

theorem Meets.of_same (h : t.Meets ρ g) (hsame : t.same s = true) : s.Meets ρ g := by
  induction t generalizing g s with
  | number a =>
    cases s with
    | number b => simpa only [Meets, Decimal.toRat?_eq_of_same hsame] using h
    | var | unary | binary => cases hsame
  | var x =>
    cases s with
    | var y => trivial
    | number | unary | binary => cases hsame
  | unary op a ih =>
    cases s with
    | unary op' a' =>
      rw [same, Bool.and_eq_true, decide_eq_true_eq] at hsame
      obtain ⟨rfl, ha⟩ := hsame
      cases g <;> exact ⟨ih h.1 ha, real_of_same (ρ := ρ) ha ▸ h.2⟩
    | number | var | binary => cases hsame
  | binary op a b iha ihb =>
    cases s with
    | binary op' a' b' =>
      rw [same, Bool.and_eq_true, Bool.and_eq_true, decide_eq_true_eq] at hsame
      obtain ⟨⟨rfl, ha⟩, hb⟩ := hsame
      have hreala : a.real ρ = a'.real ρ := real_of_same ha
      have hrealb : b.real ρ = b'.real ρ := real_of_same hb
      cases op with
      | plus | minus | times => exact ⟨iha h.1 ha, ihb h.2 hb⟩
      | div => exact ⟨iha h.1 ha, ihb h.2.1 hb, hrealb ▸ h.2.2⟩
      | power =>
        refine h.imp (fun h => ⟨iha h.1 ha, ihb h.2.1 hb, hreala ▸ h.2.2⟩) fun h => ?_
        obtain ⟨hg, hmeets, n, k, rfl, hn, hk⟩ := h
        cases b' with
        | number n' =>
          have hn' : n'.toRat? = some (k : ℚ) := (Decimal.toRat?_eq_of_same hb).symm.trans hn
          exact ⟨hg, iha hmeets ha, n', k, rfl, hn', hreala ▸ hk⟩
        | var | unary | binary => cases hb
      | log => exact ⟨iha h.1 ha, ihb h.2.1 hb, hreala ▸ hrealb ▸ h.2.2⟩
      | _ => exact h.elim
    | number | var | unary => cases hsame

/-! ### A meaning -/

open Simplify (IsMeaning)

instance : IsMeaning (Has ρ g) where
  number_iff := by
    intro c v
    constructor
    · rintro ⟨h, rfl⟩
      obtain ⟨q, hq⟩ := Option.isSome_iff_exists.mp h
      exact ⟨q, hq, real_number hq⟩
    · rintro ⟨q, hq, rfl⟩
      exact ⟨by simp [Meets, hq], real_number hq⟩
  plus_iff := by
    intro a b w
    constructor
    · rintro ⟨⟨ha, hb⟩, rfl⟩
      exact ⟨_, _, ⟨ha, rfl⟩, ⟨hb, rfl⟩, rfl⟩
    · rintro ⟨_, _, ⟨ha, rfl⟩, ⟨hb, rfl⟩, rfl⟩
      exact ⟨⟨ha, hb⟩, rfl⟩
  minus_iff := by
    intro a b w
    constructor
    · rintro ⟨⟨ha, hb⟩, rfl⟩
      exact ⟨_, _, ⟨ha, rfl⟩, ⟨hb, rfl⟩, rfl⟩
    · rintro ⟨_, _, ⟨ha, rfl⟩, ⟨hb, rfl⟩, rfl⟩
      exact ⟨⟨ha, hb⟩, rfl⟩
  times_iff := by
    intro a b w
    constructor
    · rintro ⟨⟨ha, hb⟩, rfl⟩
      exact ⟨_, _, ⟨ha, rfl⟩, ⟨hb, rfl⟩, rfl⟩
    · rintro ⟨_, _, ⟨ha, rfl⟩, ⟨hb, rfl⟩, rfl⟩
      exact ⟨⟨ha, hb⟩, rfl⟩
  div_iff := by
    intro a b w
    constructor
    · rintro ⟨⟨ha, hb, hne⟩, rfl⟩
      exact ⟨_, _, ⟨ha, rfl⟩, ⟨hb, rfl⟩, hne.isUnit, div_mul_cancel₀ _ hne⟩
    · rintro ⟨_, _, ⟨ha, rfl⟩, ⟨hb, rfl⟩, hunit, hw⟩
      exact ⟨⟨ha, hb, hunit.ne_zero⟩, (eq_div_of_mul_eq hunit.ne_zero hw).symm⟩
  eq_of_same := by
    rintro a b _ _ hsame ⟨-, rfl⟩ ⟨-, rfl⟩
    exact real_of_same hsame

namespace Has
variable {v : ℝ} {n : Decimal} {k : ℤ}

theorem of_interior (h : Has ρ .interior t w) : Has ρ g t w :=
  ⟨h.1.mono (.inl rfl), h.2⟩

theorem to_defined (h : Has ρ g t w) : Has ρ .defined t w :=
  ⟨h.1.mono (.inr rfl), h.2⟩

theorem of_same (h : Has ρ g t w) (hsame : t.same s = true) : Has ρ g s w :=
  ⟨h.1.of_same hsame, (real_of_same hsame).symm.trans h.2⟩

theorem unary (op : Unary) (ha : Has ρ .defined a u) (hu : u ∈ op.domain) :
    Has ρ .defined (unary op a) (op.real u) := by
  obtain ⟨ha, rfl⟩ := ha
  exact ⟨⟨ha, hu⟩, rfl⟩

theorem exists_of_unary (h : Has ρ .interior (.unary op a) w) :
    ∃ u, Has ρ .interior a u ∧ op.IsInteriorAt u ∧ w = op.real u := by
  obtain ⟨⟨ha, hop⟩, rfl⟩ := h
  exact ⟨_, ⟨ha, rfl⟩, hop, rfl⟩

/-- A real power, which has a positive base. -/
theorem power (ha : Has ρ .interior a u) (hb : Has ρ .interior b v) (hu : 0 < u) :
    Has ρ g (binary .power a b) (u ^ v) := by
  obtain ⟨ha, rfl⟩ := ha
  obtain ⟨hb, rfl⟩ := hb
  exact ⟨.inl ⟨ha, hb, hu⟩, rfl⟩

theorem integerPower (hg : g ≠ .interior) (ha : Has ρ g a u) (hn : n.toRat? = some (k : ℚ))
    (hk : u ≠ 0 ∨ 0 ≤ k) : Has ρ g (binary .power a (number n)) (u ^ k) := by
  obtain ⟨ha, rfl⟩ := ha
  exact ⟨.inr ⟨hg, ha, n, k, rfl, hn, hk⟩, real_integerPower hn⟩

/-- A power has a positive base or an integer as the exponent. -/
theorem exists_of_power (h : Has ρ g (binary .power a b) w) :
    (∃ u v, Has ρ .interior a u ∧ Has ρ .interior b v ∧ 0 < u ∧ w = u ^ v) ∨
      g ≠ .interior ∧ ∃ n u, ∃ k : ℤ, b = number n ∧ Has ρ g a u ∧ n.toRat? = some (k : ℚ) ∧
        (u ≠ 0 ∨ 0 ≤ k) ∧ w = u ^ k := by
  obtain ⟨h, rfl⟩ := h
  rcases h with ⟨ha, hb, hpos⟩ | ⟨hg, ha, n, k, rfl, hn, hk⟩
  · exact .inl ⟨_, _, ⟨ha, rfl⟩, ⟨hb, rfl⟩, hpos, rfl⟩
  · exact .inr ⟨hg, n, _, k, rfl, ⟨ha, rfl⟩, hn, hk, (integerPower hg ⟨ha, rfl⟩ hn hk).2⟩

end Has

end Tree

end Reckon
