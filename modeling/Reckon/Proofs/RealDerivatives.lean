import Reckon.Proofs.RealChainRule
import Reckon.Proofs.RealSlopes

/-!
# Derivatives of real functions

Where a tree is inside the domains of all its operators, the derivative that the rules build is
defined and has the slope of the tree as its value, as long as no number is rounded
(`Tree.hasDerivAt_derivative`). One rule is justified by the slopes of the parts, the whole
derivative by induction on the levels: a logarithm is derived through a quotient that is no part of
it.
-/

namespace Reckon

open Reckon.Tree (number var unary binary Has)
open Simplify
open scoped Topology

variable {x : String} {ρ : String → ℝ} {s : ℝ} {a b t : Tree} {w w' : ℝ}

/-! ### One level -/

section
variable {derivative : Tree → Plan Tree}
  (hderivative : ∀ (t : Tree) (v v' : ℝ), HasSlope x ρ s t v v' →
    Gives Faithful (Has (moved x ρ s) .defined) (derivative t) v')
include hderivative

theorem gives_chainRule {op : Unary} (h : HasSlope x ρ s (unary op a) w w') :
    Gives Faithful (Has (moved x ρ s) .defined) (op.chainRule.apply op a derivative) w' := by
  obtain ⟨ha, hop⟩ := h.has.1
  obtain ⟨v', hv⟩ := HasSlope.of_meets (x := x) (ha.mono (.inl rfl))
  rw [h.eq ((Unary.hasDerivAt_real hop).comp s hv.hasDerivAt)]
  exact (Unary.multipliesBy_slope ⟨ha, rfl⟩ hop).gives_apply (hderivative _ _ _ hv)

/-- A power with a positive base. The rule depends on whether the base or the exponent is a
number. -/
theorem gives_derivativeOfRealPower (ha : a.Meets (moved x ρ s) .interior)
    (hb : b.Meets (moved x ρ s) .interior) (hpos : 0 < a.real (moved x ρ s))
    (h : HasSlope x ρ s (binary .power a b) w w') :
    Gives Faithful (Has (moved x ρ s) .defined) (Tree.derivativeOfPower derivative a b) w' := by
  obtain ⟨u', hu⟩ := HasSlope.of_meets (x := x) (ha.mono (.inl rfl))
  obtain ⟨v', hv⟩ := HasSlope.of_meets (x := x) (hb.mono (.inl rfl))
  have hw := h.eq (hu.hasDerivAt.rpow hv.hasDerivAt hpos)
  have hpower : Has (moved x ρ s) .defined (binary .power a b) w := h.has.to_defined
  have hln : HasSlope x ρ s (unary .ln a) (Real.log (a.real (moved x ρ s)))
      (u' / a.real (moved x ρ s)) :=
    ⟨(has_ln ⟨ha, rfl⟩ hpos).of_interior, hu.hasDerivAt.log hpos.ne'⟩
  have hvalue : a.real (moved x ρ s) ^ b.real (moved x ρ s) = w := h.has.2
  unfold Tree.derivativeOfPower
  split
  · refine (hderivative _ _ _ hv).bind fun _ hdb =>
      (Gives.times hln.has.to_defined hdb).bind fun _ hs => (Gives.times hs hpower).of_eq ?_
    rw [hw, ← hvalue, hu.eq (hasDerivAt_const s _)]
    ring
  · rename_i n hne
    obtain ⟨q, hq⟩ := Option.isSome_iff_exists.mp hb
    rw [hv.eq (hasDerivAt_const s _), Tree.real_number hq] at hw
    refine (hderivative _ _ _ hu).bind fun _ hda =>
      Gives.bind_isNumber (ensures_minus (Has (moved x ρ s) .defined) hq Decimal.toRat?_one)
        fun m hm s' hs' => ?_
    have hlower := hs'.hasPower (g := .defined)
      (Has.power ⟨ha, rfl⟩ (IsMeaning.number hm) hpos)
    refine (Gives.times (IsMeaning.number hq) hlower).bind fun _ hs =>
      (Gives.times hda hs).of_eq ?_
    rw [hw, eq_ratCast, eq_ratCast]
    push_cast
    ring
  · obtain ⟨l, hl, hlog⟩ := exists_ln a
    have hslope := hln.congr fun ρ w h => (hlog ρ w h).of_interior
    rw [hl]
    refine (hderivative _ _ _ hv).bind fun _ hdb =>
      (Gives.times hdb hslope.has.to_defined).bind fun _ hleft =>
      (hderivative _ _ _ hslope).bind fun _ hdl =>
      (Gives.times hdl hv.has.to_defined).bind fun _ hright =>
      (Gives.plus hleft hright).bind fun _ hsum => (Gives.times hpower hsum).of_eq ?_
    rw [hw, ← hvalue, Real.rpow_sub_one hpos.ne']
    ring

theorem gives_derivativeOfPower
    (hzero : ∀ n, Ensures Faithful (derivative (number n)) fun s => s.isZero = true)
    (h : HasSlope x ρ s (binary .power a b) w w') :
    Gives Faithful (Has (moved x ρ s) .defined) (Tree.derivativeOfPower derivative a b) w' := by
  rcases h.has.1 with ⟨ha, hb, hpos⟩ | ⟨-, ha, n, k, rfl, hn, hk⟩
  · exact gives_derivativeOfRealPower hderivative ha hb hpos h
  · obtain ⟨u', hu⟩ := HasSlope.of_meets (x := x) ha
    have hw : w' = k * a.real (moved x ρ s) ^ (k - 1) * u' := by
      have hslope := (hasDerivAt_zpow k _ hk).comp s hu.hasDerivAt
      refine h.eq (hslope.congr_of_eventuallyEq (.of_forall fun r => ?_))
      exact Tree.real_integerPower hn
    refine Gives.derivativeOfIntegerPower hderivative hzero hn hu ?_ ?_ ?_
    · rintro c rfl
      rw [hw, hu.eq (hasDerivAt_const s _), mul_zero]
    · rintro rfl
      rw [hw, Int.cast_zero, zero_mul, zero_mul]
    · intro hk0
      refine ⟨_, by rw [hw, mul_comm], fun m hm => hu.has.to_defined.integerPower (by simp) hm ?_⟩
      exact hk.imp_right fun h => by omega

theorem gives_derivativeOfLog (h : HasSlope x ρ s (binary .log a b) w w') :
    Gives Faithful (Has (moved x ρ s) .defined)
      (do derivative (← Plan.combine .div (← Simplify.ln a) (← Simplify.ln b))) w' := by
  obtain ⟨la, hla, hloga⟩ := exists_ln a
  obtain ⟨lb, hlb, hlogb⟩ := exists_ln b
  rw [hla, hlb]
  intro e he
  refine hderivative _ _ _ (h.congr fun ρ w h => ?_)
  obtain ⟨⟨ha, hb, hposa, hposb, hlog⟩, rfl⟩ := h
  -- the quotient of the logarithms has the value of the logarithm at every point
  refine he.has _ _ _ (keepsGrade (by simp)) (IsMeaning.div ?_ ?_ hlog.isUnit)
  · refine IsMeaning.of_eq (hloga _ _ (has_ln ⟨ha, rfl⟩ hposa)).of_interior ?_
    exact (div_mul_cancel₀ _ hlog).symm
  · exact (hlogb _ _ (has_ln ⟨hb, rfl⟩ hposb)).of_interior

end

/-! ### All levels -/

theorem gives_derivativeLevels (levels : Nat) (h : HasSlope x ρ s t w w') :
    Gives Faithful (Has (moved x ρ s) .defined) (Tree.derivativeLevels x levels t) w' := by
  induction levels generalizing t w w' with
  | zero => trivial
  | succ levels ih =>
    have hderivative : ∀ (t : Tree) (v v' : ℝ), HasSlope x ρ s t v v' →
        Gives Faithful (Has (moved x ρ s) .defined) (Tree.derivativeLevels x levels t) v' :=
      fun t v v' h => ih h
    cases t with
    | number n =>
      rw [h.eq (hasDerivAt_const s _)]
      exact IsMeaning.zero (D := Has (moved x ρ s) .defined)
    | var y =>
      rw [h.eq (hasDerivAt_moved y)]
      simp only [Tree.derivativeLevels]
      split
      · exact IsMeaning.one (D := Has (moved x ρ s) .defined)
      · exact IsMeaning.zero (D := Has (moved x ρ s) .defined)
    | unary op a => exact gives_chainRule hderivative h
    | binary op a b =>
      cases op with
      | plus | minus => exact Gives.derivativeOfTerms hderivative h
      | times => exact Gives.derivativeOfProduct hderivative h
      | div => exact Gives.derivativeOfQuotient hderivative h
      | power => exact gives_derivativeOfPower hderivative (ensures_derivative_number x levels) h
      | log => exact gives_derivativeOfLog hderivative h
      | _ => exact h.has.1.elim

namespace Tree

/-- Inside the domains the derivative is defined, and its value is the slope of the tree. -/
theorem hasDerivAt_derivative {d : Tree} (ht : t.IsInterior (moved x ρ s))
    (hd : t.derivative x = .ok d) (hunrounded : (t.derivativePlan x).IsUnrounded) :
    d.IsDefined (moved x ρ s) ∧
      HasDerivAt (fun r => t.real (moved x ρ r)) (d.real (moved x ρ s)) s ∧
        ∀ᶠ r in 𝓝 s, t.IsInterior (moved x ρ r) := by
  have hmeets := isInterior_iff.mp ht
  obtain ⟨w', hslope⟩ := HasSlope.of_meets (x := x) (hmeets.mono (.inl rfl))
  obtain ⟨hdefined, hvalue⟩ := hunrounded.follow (gives_derivativeLevels _ hslope) hd
  refine ⟨hdefined.isDefined, hvalue ▸ hslope.hasDerivAt, ?_⟩
  exact (hmeets.eventually (by simp)).1.mono fun r => isInterior_iff.mpr

/-- The derivative of `asin(x)` at one half is `1 / sqrt(1 - x ^ 2)`. -/
theorem hasDerivAt_derivative_asin :
    HasDerivAt (fun r => (unary .asin (var "x")).real (moved "x" (fun _ => 0) r))
      ((binary .div one (unary .sqrt (binary .minus one (binary .power (var "x") two)))).real
        (moved "x" (fun _ => 0) (1 / 2))) (1 / 2) := by
  have hinterior : (unary .asin (var "x")).IsInterior (moved "x" (fun _ => 0) (1 / 2)) := by
    refine ⟨trivial, ?_, by simp⟩
    rw [Unary.domain, interior_Icc]
    norm_num [real, moved]
  have hexact : ((unary .asin (var "x")).derivativePlan "x").IsExact := by
    decide +kernel
  exact (hasDerivAt_derivative hinterior (by rfl) hexact.isUnrounded).2.1

/-- A variable is not told apart from one whose name differs in the case of its letters. And the
derivative of the cosecant contains the cotangent, which is no reciprocal of the tangent where the
tangent has a pole. -/
theorem not_hasDerivAt_derivative_capital :
    (¬ ∀ (x : String) (ρ : String → ℝ) (t d : Tree), t.IsInterior ρ → t.derivative x = .ok d →
      (t.derivativePlan x).IsUnrounded →
      HasDerivAt (fun r => t.real (Function.update ρ x r)) (d.real ρ) (ρ x)) ∧
    ((unary .csc (var "x")).IsInterior (fun _ => Real.pi / 2) ∧
      (unary .csc (var "x")).derivative "x" =
        .ok (binary .times minusOne
          (binary .times (unary .csc (var "x")) (unary .cotan (var "x")))) ∧
      Real.pi / 2 ∉ Unary.tan.domain) := by
  refine ⟨fun h => ?_, ⟨trivial, ?_, by simp⟩, by rfl, ?_⟩
  · have hexact : ((var "X").derivativePlan "x").IsExact := by
      decide +kernel
    have hslope := h "x" (fun _ => 0) (var "X") one trivial (by rfl) hexact.isUnrounded
    have hconst : (fun r => (var "X").real (Function.update (fun _ => 0) "x" r)) = fun _ => 0 := by
      funext r
      simp [real]
    rw [hconst, one, real_number Decimal.toRat?_one] at hslope
    exact absurd (hslope.unique (hasDerivAt_const _ _)) (by norm_num)
  · have hopen : IsOpen {u : ℝ | Real.sin u ≠ 0} :=
      isOpen_ne_fun Real.continuous_sin continuous_const
    rw [Unary.domain, hopen.interior_eq]
    simp [real]
  · simp [Unary.domain]

end Tree

end Reckon
