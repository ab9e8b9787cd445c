import Reckon.Proofs.DerivativeRules
import Reckon.Proofs.FixedPoint
import Reckon.Proofs.MergedPowers
import Reckon.Proofs.StepFunctions

/-!
# Derivatives of functions with steps

Off all kinks and jumps the derivative that the rules build has the slope of the tree as its value,
if no number is rounded (`Tree.hasDerivAt_derivative_steps`). The rule for a remainder `a % b` takes
the floor of the quotient where the remainder takes its integer part, so it is right where the
quotient is not negative, or where the divisor stands still (`Tree.RemaindersAgree`).
-/

namespace Reckon

open Reckon.Tree (number var unary binary)
open Simplify
open scoped Topology

section
variable (x : String) (ρ : String → ℝ) (s : ℝ)

/-- Every remainder is of operands with a quotient that is not negative, or of a divisor that stands
still. -/
def Tree.RemaindersAgree : Tree → Prop
  | number _ | var _ => True
  | unary _ a => a.RemaindersAgree
  | binary op a b =>
    a.RemaindersAgree ∧ b.RemaindersAgree ∧
      (op = .modulo → 0 ≤ a.steps (moved x ρ s) / b.steps (moved x ρ s) ∨
        HasDerivAt (fun r => b.steps (moved x ρ r)) 0 s)

/-- At `s` the tree has the value `v` and the slope `v'`. -/
structure HasRate (t : Tree) (v v' : ℝ) : Prop where
  smooth : t.IsSmooth (moved x ρ s)
  agree : t.RemaindersAgree x ρ s
  value : t.steps (moved x ρ s) = v
  hasDerivAt : HasDerivAt (fun r => t.steps (moved x ρ r)) v' s

end

variable {x : String} {ρ : String → ℝ} {s : ℝ} {a b t : Tree} {u v v' w w' : ℝ}

theorem Tree.IsSmooth.isFlat (h : t.IsSmooth ρ) : t.IsFlat := by
  induction t with
  | number a =>
    cases a with
    | finite => rfl
    | infinite | nan => cases h
  | var y => trivial
  | unary op a ih => exact ih h.1
  | binary op a b iha ihb =>
    have hpower : op ≠ .power := by
      rintro rfl
      exact h.2.2
    exact ⟨iha h.1, ihb h.2.1, by simp [nests, hpower]⟩

namespace HasRate

theorem of_smooth (h : t.IsSmooth (moved x ρ s)) (hagree : t.RemaindersAgree x ρ s) :
    ∃ v', HasRate x ρ s t (t.steps (moved x ρ s)) v' :=
  ⟨_, h, hagree, rfl, h.eventually.2.hasDerivAt⟩

theorem eq (h : HasRate x ρ s t v v') (hw : HasDerivAt (fun r => t.steps (moved x ρ r)) w' s) :
    v' = w' :=
  h.hasDerivAt.unique hw

theorem readsAs (h : HasRate x ρ s t v v') : ReadsAs .steps (moved x ρ s) t v := by
  rw [readsAs_iff h.smooth.isFlat, h.smooth.real?_eq, h.value]

/-- Operands have a value and a slope as well. -/
theorem operands {op : Binary} (h : HasRate x ρ s (binary op a b) w w') :
    ∃ u' v', HasRate x ρ s a (a.steps (moved x ρ s)) u' ∧
      HasRate x ρ s b (b.steps (moved x ρ s)) v' := by
  obtain ⟨u', ha⟩ := of_smooth h.smooth.1 h.agree.1
  obtain ⟨v', hb⟩ := of_smooth h.smooth.2.1 h.agree.2.1
  exact ⟨u', v', ha, hb⟩

end HasRate

instance : HasSlopes (ReadsAs .steps (moved x ρ s)) (HasRate x ρ s) where
  means h := h.readsAs
  plus := by
    intro a b w w' h
    obtain ⟨u', v', ha, hb⟩ := h.operands
    exact ⟨_, _, _, _, ha, hb, h.eq (ha.hasDerivAt.add hb.hasDerivAt)⟩
  minus := by
    intro a b w w' h
    obtain ⟨u', v', ha, hb⟩ := h.operands
    exact ⟨_, _, _, _, ha, hb, h.eq (ha.hasDerivAt.sub hb.hasDerivAt)⟩
  times := by
    intro a b w w' h
    obtain ⟨u', v', ha, hb⟩ := h.operands
    refine ⟨_, _, _, _, ha, hb, ?_⟩
    rw [h.eq (ha.hasDerivAt.mul hb.hasDerivAt), add_comm]
  div := by
    intro a b w w' h
    obtain ⟨u', v', ha, hb⟩ := h.operands
    have hne : b.steps (moved x ρ s) ≠ 0 := h.smooth.2.2
    refine ⟨_, _, _, _, ha, hb, hne.isUnit, ?_⟩
    rw [h.eq (ha.hasDerivAt.fun_div hb.hasDerivAt hne)]
    field_simp

/-! ### One level -/

section
variable {derivative : Tree → Plan Tree}
  (hderivative : ∀ (t : Tree) (v v' : ℝ), HasRate x ρ s t v v' →
    Gives (Merging .steps (moved x ρ s)) (ReadsAs .steps (moved x ρ s)) (derivative t) v')
include hderivative

theorem gives_chainRule_steps {op : Unary} (h : HasRate x ρ s (unary op a) w w') :
    Gives (Merging .steps (moved x ρ s)) (ReadsAs .steps (moved x ρ s))
      (op.chainRule.apply op a derivative) w' := by
  obtain ⟨v', ha⟩ := HasRate.of_smooth h.smooth.1 h.agree
  have hop := h.smooth.2
  have hw := h.eq ((Unary.hasDerivAt_steps hop).comp s ha.hasDerivAt)
  cases op with
  | floor | ceil | round =>
    have hzero : w' = 0 := hw.trans (zero_mul v')
    exact IsMeaning.of_eq (IsMeaning.zero (D := ReadsAs .steps (moved x ρ s))) hzero.symm
  | fpart =>
    rw [hw, Unary.rate, one_mul]
    exact hderivative _ _ _ ha
  | abs =>
    have hne : a.steps (moved x ρ s) ≠ 0 := hop
    have habs : ReadsAs .steps (moved x ρ s) (unary .abs a) |a.steps (moved x ρ s)| :=
      readsAs_unary_iff.mpr ⟨_, ha.readsAs, rfl⟩
    have hfactor : Gives (Merging .steps (moved x ρ s)) (ReadsAs .steps (moved x ρ s))
        (Plan.combine .div a (unary .abs a)) (Unary.abs.rate (a.steps (moved x ρ s))) := by
      refine Gives.div (IsMeaning.of_eq ha.readsAs ?_) habs (abs_ne_zero.mpr hne).isUnit
      exact (div_mul_cancel₀ _ (abs_ne_zero.mpr hne)).symm
    rw [hw, mul_comm]
    exact (hderivative _ _ _ ha).bind fun _ hda => hfactor.bind fun _ hg => Gives.times hda hg
  | _ => exact hop.elim

/-- The rule takes the floor of the quotient for its integer part. -/
theorem gives_derivativeOfRemainder (h : HasRate x ρ s (binary .modulo a b) w w') :
    Gives (Merging .steps (moved x ρ s)) (ReadsAs .steps (moved x ρ s))
      (do
        let da ← derivative a
        let db ← derivative b
        Plan.combine .minus da
          (← Plan.combine .times db (unary .floor (← Plan.combine .div a b)))) w' := by
  obtain ⟨u', v', ha, hb⟩ := h.operands
  obtain ⟨hne, hjump⟩ := h.smooth.2.2
  have hfloor : w' = u' - v' * ⌊a.steps (moved x ρ s) / b.steps (moved x ρ s)⌋ := by
    rw [h.eq (hasDerivAt_remainder ha.hasDerivAt hb.hasDerivAt ⟨hne, hjump⟩)]
    rcases h.agree.2.2 rfl with hnonneg | hstill
    · rw [integerPart, if_pos hnonneg]
    · rw [hb.eq hstill, zero_mul, zero_mul]
  rw [hfloor]
  refine (hderivative _ _ _ ha).bind fun _ hda => (hderivative _ _ _ hb).bind fun _ hdb => ?_
  have hquotient : ReadsAs .steps (moved x ρ s) a
      (a.steps (moved x ρ s) / b.steps (moved x ρ s) * b.steps (moved x ρ s)) :=
    IsMeaning.of_eq ha.readsAs (div_mul_cancel₀ _ hne).symm
  exact (Gives.div hquotient hb.readsAs hne.isUnit).bind fun _ hq =>
    (Gives.times hdb (readsAs_unary_iff.mpr ⟨_, hq, rfl⟩)).bind fun _ hright =>
    Gives.minus hda hright

end

/-! ### All levels -/

theorem gives_derivativeLevels_steps (levels : Nat) (h : HasRate x ρ s t w w') :
    Gives (Merging .steps (moved x ρ s)) (ReadsAs .steps (moved x ρ s))
      (Tree.derivativeLevels x levels t) w' := by
  induction levels generalizing t w w' with
  | zero => trivial
  | succ levels ih =>
    have hderivative : ∀ (t : Tree) (v v' : ℝ), HasRate x ρ s t v v' →
        Gives (Merging .steps (moved x ρ s)) (ReadsAs .steps (moved x ρ s))
          (Tree.derivativeLevels x levels t) v' :=
      fun t v v' h => ih h
    cases t with
    | number n =>
      rw [h.eq (hasDerivAt_const s _)]
      exact IsMeaning.zero (D := ReadsAs .steps (moved x ρ s))
    | var y =>
      rw [h.eq (hasDerivAt_moved y)]
      simp only [Tree.derivativeLevels]
      split
      · exact IsMeaning.one (D := ReadsAs .steps (moved x ρ s))
      · exact IsMeaning.zero (D := ReadsAs .steps (moved x ρ s))
    | unary op a => exact gives_chainRule_steps hderivative h
    | binary op a b =>
      cases op with
      | plus | minus => exact Gives.derivativeOfTerms hderivative h
      | times => exact Gives.derivativeOfProduct hderivative h
      | div => exact Gives.derivativeOfQuotient hderivative h
      | modulo => exact gives_derivativeOfRemainder hderivative h
      | _ => exact h.smooth.2.2.elim

/-! ### The form of the derivative -/

theorem builds_derivativeOfTerms {derivative : Tree → Plan Tree}
    (hderivative : ∀ t, t.IsSmooth ρ → Builds Tree.IsFlat (derivative t)) (h : t.IsSmooth ρ) :
    Builds Tree.IsFlat (Tree.foldSpine Binary.isSign derivative Plan.combine t) := by
  induction t with
  | number | var | unary => exact hderivative _ h
  | binary op a b iha ihb =>
    rw [Tree.foldSpine]
    split
    · exact (iha h.1).bind fun _ hda => (hderivative b h.2.1).bind fun _ => Builds.combine hda
    · exact hderivative _ h

/-- No power of a power arises. -/
theorem builds_derivativeLevels (levels : Nat) (h : t.IsSmooth ρ) :
    Builds Tree.IsFlat (Tree.derivativeLevels x levels t) := by
  have hzero : Tree.IsFlat .zero := Builds.zero
  have hone : Tree.IsFlat .one := Builds.one
  have hcombine {op : Binary} {a b : Tree} :
      a.IsFlat → b.IsFlat → Builds Tree.IsFlat (Plan.combine op a b) :=
    Builds.combine
  induction levels generalizing t with
  | zero => trivial
  | succ levels ih =>
    cases t with
    | number n => exact hzero
    | var y =>
      simp only [Tree.derivativeLevels]
      split
      · exact hone
      · exact hzero
    | unary op a =>
      have ha : Tree.IsFlat a := h.1.isFlat
      cases op with
      | floor | ceil | round => exact hzero
      | fpart => exact ih h.1
      | abs =>
        have habs : Tree.IsFlat (unary .abs a) := ha
        exact (ih h.1).bind fun _ hda => (hcombine ha habs).bind fun _ => hcombine hda
      | _ => exact h.2.elim
    | binary op a b =>
      have ha : Tree.IsFlat a := h.1.isFlat
      have hb : Tree.IsFlat b := h.2.1.isFlat
      cases op with
      | plus | minus => exact builds_derivativeOfTerms (fun _ => ih) h
      | times =>
        exact (ih h.2.1).bind fun _ hdb => (hcombine ha hdb).bind fun _ hleft =>
          (ih h.1).bind fun _ hda => (hcombine hda hb).bind fun _ => hcombine hleft
      | div =>
        exact (ih h.1).bind fun _ hda => (hcombine hb hda).bind fun _ hleft =>
          (ih h.2.1).bind fun _ hdb => (hcombine ha hdb).bind fun _ hright =>
          (hcombine hleft hright).bind fun _ hsum =>
          (Builds.square hb).bind fun _ => hcombine hsum
      | modulo =>
        exact (ih h.1).bind fun _ hda => (ih h.2.1).bind fun _ hdb =>
          (hcombine ha hb).bind fun q hq =>
          (hcombine hdb (b := unary .floor q) hq).bind fun _ => hcombine hda
      | _ => exact h.2.2.elim

namespace Tree

/-- Off all kinks and jumps the derivative is defined, and its value is the slope of the tree. -/
theorem hasDerivAt_derivative_steps {d : Tree} (ht : t.IsSmooth (moved x ρ s))
    (hagree : t.RemaindersAgree x ρ s) (hd : t.derivative x = .ok d)
    (hunrounded : (t.derivativePlan x).IsUnrounded) :
    ∃ w', d.real? .steps (moved x ρ s) = some w' ∧
      HasDerivAt (fun r => t.steps (moved x ρ r)) w' s ∧
        ∀ᶠ r in 𝓝 s, t.real? .steps (moved x ρ r) = some (t.steps (moved x ρ r)) := by
  obtain ⟨w', hrate⟩ := HasRate.of_smooth ht hagree
  obtain ⟨r, hr⟩ := hunrounded
  obtain rfl := Except.ok.inj ((unrounded_isPartOf_working.run hr).symm.trans hd)
  have hflat : Tree.IsFlat r := (builds_derivativeLevels (maxDepth + 1) ht).run hd
  have hread := fulfills_merging.run (gives_derivativeLevels_steps (maxDepth + 1) hrate) hr
  refine ⟨w', (readsAs_iff hflat).mp hread, hrate.hasDerivAt, ?_⟩
  exact ht.eventually.1.mono fun r hr => hr.real?_eq

/-- The derivative of `7 % x` is `-1 * floor(7 / x)`, which is right at two. -/
theorem hasDerivAt_derivative_remainder :
    ∃ w', (binary .times minusOne (unary .floor (binary .div (number (.ofNat 7)) (var "x")))).real?
        .steps (moved "x" (fun _ => 0) 2) = some w' ∧
      HasDerivAt (fun r => (binary .modulo (number (.ofNat 7)) (var "x")).steps
        (moved "x" (fun _ => 0) r)) w' 2 := by
  have hseven : (number (.ofNat 7)).steps (moved "x" (fun _ => 0) 2) = 7 := by
    have h : (Decimal.ofNat 7).toRat? = some 7 := by decide +kernel
    simp [steps, h]
  have hx : (var "x").steps (moved "x" (fun _ => 0) 2) = 2 := by
    simp [steps, moved]
  have hexact : ((binary .modulo (number (.ofNat 7)) (var "x")).derivativePlan "x").IsExact := by
    decide +kernel
  have hsmooth : (binary .modulo (number (.ofNat 7)) (var "x")).IsSmooth
      (moved "x" (fun _ => 0) 2) := by
    refine ⟨rfl, trivial, ?_⟩
    rw [hseven, hx]
    refine ⟨two_ne_zero, fun k _ hk => ?_⟩
    have hk : (7 : ℤ) = k * 2 := by exact_mod_cast (div_eq_iff two_ne_zero).mp hk
    omega
  have hagree :
      (binary .modulo (number (.ofNat 7)) (var "x")).RemaindersAgree "x" (fun _ => 0) 2 := by
    refine ⟨trivial, trivial, fun _ => .inl ?_⟩
    rw [hseven, hx]
    norm_num
  obtain ⟨w', hw, hslope, -⟩ :=
    hasDerivAt_derivative_steps hsmooth hagree (by rfl) hexact.isUnrounded
  exact ⟨w', hw, hslope⟩

/-- Where the quotient is negative and the divisor moves, the rule is off by the slope of the
divisor. Besides, a variable is not told apart from one whose name differs in the case of its
letters, and numbers are rounded to the working precision. -/
theorem not_hasDerivAt_derivative_remainder :
    ((binary .modulo (number (.ofNat 7)) (var "x")).IsSmooth (moved "x" (fun _ => 0) (-2)) ∧
      (binary .modulo (number (.ofNat 7)) (var "x")).derivative "x" =
        .ok (binary .times minusOne (unary .floor (binary .div (number (.ofNat 7)) (var "x")))) ∧
      (binary .times minusOne (unary .floor (binary .div (number (.ofNat 7)) (var "x")))).real?
        .steps (moved "x" (fun _ => 0) (-2)) = some 4 ∧
      HasDerivAt (fun r => (binary .modulo (number (.ofNat 7)) (var "x")).steps
        (moved "x" (fun _ => 0) r)) 3 (-2)) ∧
    ((var "X").derivative "x" = .ok one ∧
      HasDerivAt (fun r => (var "X").steps (Function.update (fun _ => 0) "x" r)) 0 0) ∧
    ((binary .times (number (.ofNat (10 ^ 50 + 1)))
        (binary .times (number (.ofNat 3)) (var "x"))).derivative "x" =
        .ok (number (.finite false (3 * 10 ^ 49) 1)) ∧
      HasDerivAt (fun r => (binary .times (number (.ofNat (10 ^ 50 + 1)))
        (binary .times (number (.ofNat 3)) (var "x"))).steps (moved "x" (fun _ => 0) r))
        (3 * 10 ^ 50 + 3) 0) := by
  have hseven : (Decimal.ofNat 7).toRat? = some 7 := by
    decide +kernel
  have hthree : (Decimal.ofNat 3).toRat? = some 3 := by
    decide +kernel
  have hlong : (Decimal.ofNat (10 ^ 50 + 1)).toRat? = some (10 ^ 50 + 1) := by
    decide +kernel
  have hx : ∀ r, moved "x" (fun _ => 0) r "x" = r := fun r => by
    simp [moved]
  have hjump : Binary.modulo.IsSmoothAt 7 (-2) := by
    refine ⟨by norm_num, fun k _ hk => ?_⟩
    have hk : (7 : ℤ) = k * -2 := by exact_mod_cast (div_eq_iff (by norm_num)).mp hk
    omega
  refine ⟨⟨⟨rfl, trivial, ?_⟩, by rfl, ?_, ?_⟩, ⟨by rfl, ?_⟩, by decide +kernel, ?_⟩
  · simpa [steps, hseven, hx] using hjump
  · have hfloor : ⌊(7 : ℝ) / -2⌋ = -4 := by
      rw [Int.floor_eq_iff]
      norm_num
    have hquotient : (binary .div (number (.ofNat 7)) (var "x")).real? .steps
        (moved "x" (fun _ => 0) (-2)) = some (7 / -2) := by
      simp [real?, hseven, hx, Binary.real?_div]
    have hright : (unary .floor (binary .div (number (.ofNat 7)) (var "x"))).real? .steps
        (moved "x" (fun _ => 0) (-2)) = some (-4 : ℤ) := by
      rw [real?, hquotient, ← hfloor]
      rfl
    rw [real?, hright]
    simp [real?, minusOne, Decimal.toRat?_minusOne]
  · have hpart : integerPart ((7 : ℝ) / -2) = -3 := by
      rw [integerPart, if_neg (by norm_num), Int.ceil_eq_iff]
      norm_num
    have hslope :=
      hasDerivAt_remainder (hasDerivAt_const (-2 : ℝ) (7 : ℝ)) (hasDerivAt_id (-2)) hjump
    refine (hslope.congr_deriv ?_).congr_of_eventuallyEq (.of_forall fun r => ?_)
    · rw [id, hpart]
      norm_num
    · simp [steps, hseven, hx]
  · simpa [steps] using hasDerivAt_const (0 : ℝ) (0 : ℝ)
  · have hslope := ((hasDerivAt_id (0 : ℝ)).const_mul 3).const_mul (10 ^ 50 + 1 : ℝ)
    refine (hslope.congr_deriv (by ring)).congr_of_eventuallyEq (.of_forall fun r => ?_)
    simp only [steps, Binary.steps, hthree, hlong, hx, Option.getD_some]
    norm_num

end Tree

end Reckon
