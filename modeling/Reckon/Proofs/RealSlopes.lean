import Mathlib.Analysis.Calculus.Deriv.Add
import Mathlib.Analysis.Calculus.Deriv.Inv
import Mathlib.Analysis.Calculus.Deriv.Mul
import Mathlib.Analysis.Calculus.Deriv.ZPow
import Mathlib.Analysis.SpecialFunctions.Pow.Deriv
import Reckon.Proofs.DerivativeRules
import Reckon.Proofs.RealAnswers
import Reckon.Text.Lowercase

/-!
# Slopes of real values

`moved x ρ r` gives the value `r` to the variable `x`, in whatever case its letters are written, and
leaves the other values as they are in `ρ`. What a tree is at a point in the grades `interior` and
`differentiable` it is around the point, and there its value has a slope in `x`
(`Tree.Meets.eventually`). `HasSlope x ρ s t v v'` says what the value and the slope are.
-/

namespace Reckon

open Reckon.Tree (number var unary binary Has)
open scoped Topology

theorem Unary.isOpen_isInteriorAt (op : Unary) : IsOpen {u | op.IsInteriorAt u} := by
  have hkink : IsOpen {u : ℝ | op = abs → u ≠ 0} := by
    by_cases h : op = abs
    · simpa [h] using isOpen_ne
    · simp [h]
  exact isOpen_interior.inter hkink

/-- The values of the variables when `x` moves. -/
def moved (x : String) (ρ : String → ℝ) (r : ℝ) : String → ℝ :=
  fun y => if Text.lowercase y.toList = Text.lowercase x.toList then r else ρ y

variable {x : String} {ρ : String → ℝ} {s : ℝ} {t : Tree} {g : Grade}

theorem hasDerivAt_moved (y : String) : HasDerivAt (fun r => moved x ρ r y)
    (if Text.lowercase y.toList = Text.lowercase x.toList then 1 else 0) s := by
  unfold moved
  split
  · exact hasDerivAt_id s
  · exact hasDerivAt_const s (ρ y)

/-- Inside the domains a tree stays so when the variable moves a little, and its value is
differentiable. -/
theorem Tree.Meets.eventually (hg : g ≠ .defined) (h : t.Meets (moved x ρ s) g) :
    (∀ᶠ r in 𝓝 s, t.Meets (moved x ρ r) g) ∧
      DifferentiableAt ℝ (fun r => t.real (moved x ρ r)) s := by
  induction t generalizing g with
  | number a => exact ⟨.of_forall fun r => h, differentiableAt_const _⟩
  | var y => exact ⟨.of_forall fun r => trivial, (hasDerivAt_moved y).differentiableAt⟩
  | unary op a ih =>
    obtain ⟨ha, hop⟩ := (unary_iff hg).mp h
    obtain ⟨hnear, hdiff⟩ := ih (by simp) ha
    refine ⟨?_, (Unary.hasDerivAt_real hop).differentiableAt.comp s hdiff⟩
    filter_upwards [hnear, hdiff.continuousAt.eventually (op.isOpen_isInteriorAt.mem_nhds hop)]
      with r hr hopr
    exact (unary_iff hg).mpr ⟨hr, hopr⟩
  | binary op a b iha ihb =>
    cases op with
    | plus =>
      obtain ⟨hneara, hdiffa⟩ := iha hg h.1
      obtain ⟨hnearb, hdiffb⟩ := ihb hg h.2
      exact ⟨hneara.and hnearb, hdiffa.add hdiffb⟩
    | minus =>
      obtain ⟨hneara, hdiffa⟩ := iha hg h.1
      obtain ⟨hnearb, hdiffb⟩ := ihb hg h.2
      exact ⟨hneara.and hnearb, hdiffa.sub hdiffb⟩
    | times =>
      obtain ⟨hneara, hdiffa⟩ := iha hg h.1
      obtain ⟨hnearb, hdiffb⟩ := ihb hg h.2
      exact ⟨hneara.and hnearb, hdiffa.mul hdiffb⟩
    | div =>
      obtain ⟨hneara, hdiffa⟩ := iha hg h.1
      obtain ⟨hnearb, hdiffb⟩ := ihb hg h.2.1
      refine ⟨?_, hdiffa.fun_div hdiffb h.2.2⟩
      filter_upwards [hneara, hnearb, hdiffb.continuousAt.eventually_ne h.2.2] with r ha hb hne
      exact ⟨ha, hb, hne⟩
    | power =>
      rcases h with ⟨ha, hb, hpos⟩ | ⟨hne, ha, n, k, rfl, hn, hk⟩
      · obtain ⟨hneara, hdiffa⟩ := iha (by simp) ha
        obtain ⟨hnearb, hdiffb⟩ := ihb (by simp) hb
        refine ⟨?_, hdiffa.rpow hdiffb hpos.ne'⟩
        filter_upwards [hneara, hnearb, hdiffa.continuousAt.eventually (lt_mem_nhds hpos)]
          with r ha hb hpos
        exact .inl ⟨ha, hb, hpos⟩
      · obtain ⟨hneara, hdiffa⟩ := iha hg ha
        have hexponent : ∀ᶠ r in 𝓝 s, a.real (moved x ρ r) ≠ 0 ∨ 0 ≤ k := by
          rcases hk with hk | hk
          · exact (hdiffa.continuousAt.eventually_ne hk).mono fun r => .inl
          · exact .of_forall fun r => .inr hk
        refine ⟨?_, ?_⟩
        · filter_upwards [hneara, hexponent] with r ha hk
          exact .inr ⟨hne, ha, n, k, rfl, hn, hk⟩
        · simp only [real_integerPower hn]
          exact hdiffa.zpow hk
    | log =>
      obtain ⟨ha, hb, hposa, hposb, hlog⟩ := h
      obtain ⟨hneara, hdiffa⟩ := iha (by simp) ha
      obtain ⟨hnearb, hdiffb⟩ := ihb (by simp) hb
      have hdifflog := hdiffb.log hposb.ne'
      refine ⟨?_, (hdiffa.log hposa.ne').fun_div hdifflog hlog⟩
      filter_upwards [hneara, hnearb, hdiffa.continuousAt.eventually (lt_mem_nhds hposa),
        hdiffb.continuousAt.eventually (lt_mem_nhds hposb),
        hdifflog.continuousAt.eventually_ne hlog] with r ha hb hposa hposb hlog
      exact ⟨ha, hb, hposa, hposb, hlog⟩
    | _ => exact h.elim

variable (x ρ s) in
/-- At `s` the tree has the value `v` and the slope `v'`. -/
structure HasSlope (t : Tree) (v v' : ℝ) : Prop where
  has : Has (moved x ρ s) .differentiable t v
  hasDerivAt : HasDerivAt (fun r => t.real (moved x ρ r)) v' s

namespace HasSlope
variable {a b t' : Tree} {v v' w w' : ℝ}

theorem of_meets (h : t.Meets (moved x ρ s) .differentiable) :
    ∃ v', HasSlope x ρ s t (t.real (moved x ρ s)) v' :=
  ⟨_, ⟨h, rfl⟩, (h.eventually (by simp)).2.hasDerivAt⟩

theorem eq (h : HasSlope x ρ s t v v') (hw : HasDerivAt (fun r => t.real (moved x ρ r)) w' s) :
    v' = w' :=
  h.hasDerivAt.unique hw

/-- A tree that stands for another one has its slope. -/
theorem congr (h : HasSlope x ρ s t v v')
    (ht : ∀ ρ w, Has ρ .differentiable t w → Has ρ .differentiable t' w) :
    HasSlope x ρ s t' v v' := by
  refine ⟨ht _ _ h.has, h.hasDerivAt.congr_of_eventuallyEq ?_⟩
  filter_upwards [(h.has.1.eventually (by simp)).1] with r hr
  exact (ht _ _ ⟨hr, rfl⟩).2

end HasSlope

open Simplify in
instance : HasSlopes (Has (moved x ρ s) .defined) (HasSlope x ρ s) where
  means h := h.has.to_defined
  plus := by
    intro a b w w' h
    obtain ⟨u', ha⟩ := HasSlope.of_meets h.has.1.1
    obtain ⟨v', hb⟩ := HasSlope.of_meets h.has.1.2
    exact ⟨_, _, _, _, ha, hb, h.eq (ha.hasDerivAt.add hb.hasDerivAt)⟩
  minus := by
    intro a b w w' h
    obtain ⟨u', ha⟩ := HasSlope.of_meets h.has.1.1
    obtain ⟨v', hb⟩ := HasSlope.of_meets h.has.1.2
    exact ⟨_, _, _, _, ha, hb, h.eq (ha.hasDerivAt.sub hb.hasDerivAt)⟩
  times := by
    intro a b w w' h
    obtain ⟨u', ha⟩ := HasSlope.of_meets h.has.1.1
    obtain ⟨v', hb⟩ := HasSlope.of_meets h.has.1.2
    refine ⟨_, _, _, _, ha, hb, ?_⟩
    rw [h.eq (ha.hasDerivAt.mul hb.hasDerivAt), add_comm]
  div := by
    intro a b w w' h
    obtain ⟨u', ha⟩ := HasSlope.of_meets h.has.1.1
    obtain ⟨v', hb⟩ := HasSlope.of_meets h.has.1.2.1
    have hne := h.has.1.2.2
    refine ⟨_, _, _, _, ha, hb, hne.isUnit, ?_⟩
    rw [h.eq (ha.hasDerivAt.fun_div hb.hasDerivAt hne)]
    field_simp

end Reckon
