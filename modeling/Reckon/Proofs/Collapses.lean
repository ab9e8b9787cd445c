import Mathlib.Analysis.Real.Pi.Bounds
import Reckon.Proofs.FixedPoint
import Reckon.Proofs.MergedPowers

/-!
# Collapsing roots, powers and inverse functions

The rules take the root of a power by halving its exponent, multiply the exponents of a power of a
power and leave out a function around its inverse, whatever the signs of the operands are. Most of
these steps keep the value wherever there is one. Three do not: a root or a power of a power, where
the base is negative (`Tree.Merges`), and the inverse cotangent of a cotangent, where the angle is
off the principal branch. Where all such steps are harmless (`Tree.CollapsesSafely`) the simplified
tree has the value of the tree (`Tree.realValue_simplify`).
-/

namespace Reckon

open Reckon.Tree (number var unary binary)
open Simplify

attribute [local instance] atLeastTwo_two

/-! ### Harmless steps -/

section
variable (I : RealInterpretation) (ρ : String → ℝ)

/-- The exponent `n` may be multiplied with that of the tree, if the tree is a power. -/
def Tree.Merges (n : ℝ) : Tree → Prop
  | binary .power p (number c) =>
    ∀ z, ∀ m : ℚ, p.real? I ρ = some z → c.toRat? = some m → MergesAt z m n
  | _ => True

/-- The rule of the operator does not change the value. -/
def Unary.CollapsesSafely : Unary → Tree → Prop
  | .sqrt, a => a.Merges I ρ (1 / 2)
  | .sin, unary .acos p | .cos, unary .asin p =>
    ∀ r, (oneMinusSquare p).run .working = .ok r → r.Merges I ρ (1 / 2)
  | .acotan, unary .cotan p => ∀ z, p.real? I ρ = some z → -(Real.pi / 2) < z ∧ z ≤ Real.pi / 2
  | _, _ => True

/-- Exponents that the rule multiplies may be multiplied. -/
def Binary.CollapsesSafely : Binary → Tree → Tree → Prop
  | .power, a, number c => ∀ n : ℚ, c.toRat? = some n → a.Merges I ρ n
  | _, _, _ => True

/-- Every rule that is applied to simplified operands keeps the value. -/
def Tree.CollapsesSafely : Tree → Prop
  | number _ | var _ => True
  | unary op a =>
    a.CollapsesSafely ∧ ∀ p, a.simplify = .ok p → op.CollapsesSafely I ρ p
  | binary op a b =>
    a.CollapsesSafely ∧ b.CollapsesSafely ∧
      ∀ p q, a.simplify = .ok p → b.simplify = .ok q → op.CollapsesSafely I ρ p q

end

namespace Simplify

open Reckon.Tree (nests)

variable {I : RealInterpretation} {ρ : String → ℝ} {a b s t : Tree} {op : Binary} {u v w : ℝ}

/-! ### One pass, operand by operand -/

section
variable {arith : Arithmetic} {levels : Nat}

theorem run_foldChain_mono {below below' : Tree → Plan Tree}
    (h : ∀ t s, (below t).run arith = .ok s → (below' t).run arith = .ok s)
    (hs : (t.foldChain below Plan.combine).run arith = .ok s) :
    (t.foldChain below' Plan.combine).run arith = .ok s := by
  induction t generalizing s with
  | number | var | unary => exact h _ _ hs
  | binary op a b iha =>
    rw [Tree.foldChain_binary] at hs ⊢
    obtain ⟨p, hp, hs⟩ := Plan.run_bind_eq_ok_iff.mp hs
    obtain ⟨q, hq, hs⟩ := Plan.run_bind_eq_ok_iff.mp hs
    exact Plan.run_bind_eq_ok_iff.mpr
      ⟨p, iha hp, Plan.run_bind_eq_ok_iff.mpr ⟨q, h _ _ hq, hs⟩⟩

/-- More levels do no harm. -/
theorem run_passLevels_succ (hs : (passLevels levels t).run arith = .ok s) :
    (passLevels (levels + 1) t).run arith = .ok s := by
  induction levels generalizing t s with
  | zero => cases hs
  | succ levels ih =>
    cases t with
    | number | var => exact hs
    | unary op a =>
      obtain ⟨p, hp, hs⟩ := Plan.run_bind_eq_ok_iff.mp hs
      exact Plan.run_bind_eq_ok_iff.mpr ⟨p, ih hp, hs⟩
    | binary op a b => exact run_foldChain_mono (fun _ _ => ih) hs

theorem run_pass_of_foldChain
    (hs : (t.foldChain (passLevels maxDepth) Plan.combine).run arith = .ok s) :
    (pass t).run arith = .ok s := by
  cases t with
  | number | var | unary => exact run_passLevels_succ hs
  | binary => exact hs

theorem exists_of_run_pass_unary {op : Unary} (hs : (pass (unary op a)).run arith = .ok s) :
    ∃ p, (pass a).run arith = .ok p ∧ (unaryRule op p).run arith = .ok s := by
  obtain ⟨p, hp, hs⟩ := Plan.run_bind_eq_ok_iff.mp hs
  exact ⟨p, run_passLevels_succ hp, hs⟩

theorem exists_of_run_pass_binary (hs : (pass (binary op a b)).run arith = .ok s) :
    ∃ p q, (pass a).run arith = .ok p ∧ (pass b).run arith = .ok q ∧
      (Plan.combine op p q).run arith = .ok s := by
  obtain ⟨p, hp, hs⟩ := Plan.run_bind_eq_ok_iff.mp hs
  obtain ⟨q, hq, hs⟩ := Plan.run_bind_eq_ok_iff.mp hs
  exact ⟨p, q, run_pass_of_foldChain hp, run_passLevels_succ hq, hs⟩

end

/-! ### Flat trees -/

theorem isFlat_of_isNormal (h : t.IsNormal) : t.IsFlat := by
  induction t with
  | number => exact h
  | var => trivial
  | unary op a ih => exact ih h.1
  | binary op a b iha ihb => exact ⟨iha h.1, ihb h.2.1, not_nests_of_rests h.2.2⟩

theorem hasFiniteNumbers_of_real? (h : t.real? I ρ = some w) : t.hasFiniteNumbers = true := by
  induction t generalizing w with
  | number a =>
    cases a with
    | finite => rfl
    | infinite | nan => cases h
  | var x => rfl
  | unary op a ih =>
    obtain ⟨u, hu, -⟩ := Option.bind_eq_some_iff.mp h
    exact ih hu
  | binary op a b iha ihb =>
    obtain ⟨u, hu, h⟩ := Option.bind_eq_some_iff.mp h
    obtain ⟨v, hv, -⟩ := Option.bind_eq_some_iff.mp h
    exact Bool.and_eq_true_iff.mpr ⟨iha hu, ihb hv⟩

theorem isFlat_of_run_pass (ht : t.hasFiniteNumbers = true)
    (hs : (pass t).run .unrounded = .ok s) : s.IsFlat :=
  isFlat_of_isNormal
    ((Builds.passLevels (maxDepth + 1) ht).run (unrounded_isPartOf_working.run hs))

/-! ### Rules for functions -/

theorem real?_power_number {p : Tree} {c : Decimal} (ha : a = binary .power p (number c))
    (h : a.real? I ρ = some u) :
    ∃ z, ∃ m : ℚ, p.real? I ρ = some z ∧ c.toRat? = some m ∧ PowerIs z m u := by
  subst ha
  obtain ⟨z, hz, h⟩ := Option.bind_eq_some_iff.mp h
  obtain ⟨v, hv, h⟩ := Option.bind_eq_some_iff.mp h
  obtain ⟨m, hm, rfl⟩ := Option.map_eq_some_iff.mp hv
  exact ⟨z, m, hz, hm, Binary.real?_power_iff.mp h⟩

/-- A power may take another exponent into its own. -/
theorem reads_merged {p : Tree} {c : Decimal} {n : ℝ} {m : ℚ}
    (hflat : (binary .power p (number c)).IsFlat)
    (ha : (binary .power p (number c)).real? I ρ = some u)
    (hsafe : (binary .power p (number c)).Merges I ρ n) (hm : c.toRat? = some m)
    (hw : PowerIs u n w) : Reads I ρ p (m * n) w := by
  have hp : p.isLiteralPower = false := by simpa [nests, Tree.isNumber] using hflat.2.2
  obtain ⟨z, m', hz, hm', hu⟩ := real?_power_number rfl ha
  obtain rfl := Option.some.inj (hm.symm.trans hm')
  exact (Reads.iff_powerIs hp).mpr
    ⟨z, (readsAs_iff hflat.1).mpr hz, hu.comp (hsafe z m hz hm) hw⟩

section
variable (hflat : a.IsFlat) (ha : a.real? I ρ = some u)
include hflat ha

theorem gives_sqrt_readsAs (hu : 0 ≤ u) (hsafe : a.Merges I ρ (1 / 2)) :
    Gives (Merging I ρ) (ReadsAs I ρ) (sqrt a) (√u) := by
  have hplain : ReadsAs I ρ (unary .sqrt a) (√u) :=
    readsAs_unary_iff.mpr ⟨u, (readsAs_iff hflat).mpr ha, (Unary.real?_iff rfl).mpr ⟨hu, rfl⟩⟩
  unfold sqrt
  split
  · rename_i x
    refine Ensures.bind (P := fun _ => True) (Ensures.ofExcept fun _ => trivial) fun less _ => ?_
    cases less with
    | false => exact hplain
    | true =>
      intro r hr
      cases r with
      | none => exact hplain
      | some z =>
        obtain ⟨q, hz, x', hx, -, hq⟩ := hr z rfl
        obtain ⟨x'', hx', rfl⟩ := Option.map_eq_some_iff.mp ha
        obtain rfl := Option.some.inj (hx.symm.trans hx')
        exact (Gives.kept hz).of_eq ((eq_ratCast _ q).trans hq)
  · rename_i p n
    intro r hr
    cases r with
    | none => exact hplain
    | some z =>
      obtain ⟨q, hz, x, hx, hq⟩ := hr z rfl
      refine Gives.bind_isNumber (ensures_kept (ReadsAs I ρ) hz) fun m hm s hs => hs.reads _ ?_
      refine Reads.literalPower_iff.mpr ⟨q, hm, ?_⟩
      have hread := reads_merged hflat ha hsafe hx (PowerIs.sqrt hu)
      rw [hq, mul_one]
      push_cast
      rwa [mul_one_div] at hread
  · exact hplain

end

theorem reads_unary {op : Unary} (hflat : a.IsFlat)
    (h : (unary op a).real? I ρ = some w) : ReadsAs I ρ (unary op a) w :=
  (readsAs_iff (t := unary op a) hflat).mpr h

theorem reads_operand {op : Unary} (hflat : (unary op a).IsFlat)
    (h : a.real? I ρ = some w) : ReadsAs I ρ a w :=
  (readsAs_iff (t := a) hflat).mpr h

theorem exists_of_real?_unary {op : Unary} (h : (unary op a).real? I ρ = some w) :
    ∃ u, a.real? I ρ = some u ∧ op.real? I u = some w :=
  Option.bind_eq_some_iff.mp h

theorem exists_of_real?_elementary {op : Unary} (hop : op.isElementary = true)
    (h : (unary op a).real? I ρ = some w) :
    ∃ u, a.real? I ρ = some u ∧ u ∈ op.domain ∧ w = op.real u := by
  obtain ⟨u, ha, hw⟩ := exists_of_real?_unary h
  exact ⟨u, ha, (Unary.real?_iff hop).mp hw⟩

section
variable (hflat : a.IsFlat)
include hflat

/-- The root that takes the place of a sine or cosine. -/
theorem reads_of_run_root (ha : a.real? I ρ = some u) (hu : u ∈ Set.Icc (-1) 1)
    (hsafe : ∀ r, (oneMinusSquare a).run .working = .ok r → r.Merges I ρ (1 / 2))
    (hs : (do sqrt (← oneMinusSquare a)).run .unrounded = .ok s) :
    ReadsAs I ρ s (√(1 - u ^ 2)) := by
  obtain ⟨r, hr, hs⟩ := Plan.run_bind_eq_ok_iff.mp hs
  have hworking := unrounded_isPartOf_working.run hr
  have hgives : Gives (Merging I ρ) (ReadsAs I ρ) (oneMinusSquare a) (1 - u * u) :=
    (Gives.square ((readsAs_iff hflat).mpr ha)).bind fun _ h => Gives.minus IsMeaning.one h
  have hrflat : r.IsFlat := (Builds.oneMinusSquare (P := Tree.IsFlat) hflat).run hworking
  have hvalue := (readsAs_iff hrflat).mp (fulfills_merging.run hgives hr)
  have hnonneg : 0 ≤ 1 - u * u := by nlinarith [hu.1, hu.2]
  rw [pow_two]
  exact fulfills_merging.run (gives_sqrt_readsAs hrflat hvalue hnonneg (hsafe r hworking)) hs

theorem reads_of_run_sin (h : (unary .sin a).real? I ρ = some w)
    (hsafe : Unary.sin.CollapsesSafely I ρ a) (hs : (sin a).run .unrounded = .ok s) :
    ReadsAs I ρ s w := by
  have hplain : ReadsAs I ρ (unary .sin a) w := reads_unary hflat h
  obtain ⟨u, ha, -, rfl⟩ := exists_of_real?_elementary rfl h
  unfold sin at hs
  split at hs
  · cases hs
    obtain ⟨z, hz, hdomain, rfl⟩ := exists_of_real?_elementary rfl ha
    exact IsMeaning.of_eq (reads_operand hflat hz) (Real.sin_arcsin hdomain.1 hdomain.2).symm
  · rename_i p
    obtain ⟨z, hz, hdomain, rfl⟩ := exists_of_real?_elementary rfl ha
    have hroot := reads_of_run_root (a := p) hflat hz hdomain hsafe hs
    exact IsMeaning.of_eq hroot (Real.sin_arccos z).symm
  · cases hs
    exact hplain

theorem reads_of_run_cos (h : (unary .cos a).real? I ρ = some w)
    (hsafe : Unary.cos.CollapsesSafely I ρ a) (hs : (cos a).run .unrounded = .ok s) :
    ReadsAs I ρ s w := by
  have hplain : ReadsAs I ρ (unary .cos a) w := reads_unary hflat h
  obtain ⟨u, ha, -, rfl⟩ := exists_of_real?_elementary rfl h
  unfold cos at hs
  split at hs
  · cases hs
    obtain ⟨z, hz, hdomain, rfl⟩ := exists_of_real?_elementary rfl ha
    exact IsMeaning.of_eq (reads_operand hflat hz) (Real.cos_arccos hdomain.1 hdomain.2).symm
  · rename_i p
    obtain ⟨z, hz, hdomain, rfl⟩ := exists_of_real?_elementary rfl ha
    have hroot := reads_of_run_root (a := p) hflat hz hdomain hsafe hs
    exact IsMeaning.of_eq hroot (Real.cos_arcsin z).symm
  · cases hs
    exact hplain

theorem gives_tan_readsAs (h : (unary .tan a).real? I ρ = some w) :
    Gives (Merging I ρ) (ReadsAs I ρ) (tan a) w := by
  have hplain : ReadsAs I ρ (unary .tan a) w := reads_unary hflat h
  obtain ⟨u, ha, hcos, rfl⟩ := exists_of_real?_elementary rfl h
  unfold tan
  split
  · obtain ⟨z, hz, -, rfl⟩ := exists_of_real?_elementary rfl ha
    exact IsMeaning.of_eq (reads_operand hflat hz) (Real.tan_arctan z).symm
  · obtain ⟨z, hz, hu⟩ := exists_of_real?_unary ha
    rw [Unary.real?_acotan, Option.some.injEq] at hu
    have hne : z ≠ 0 := by
      rintro rfl
      rw [if_pos rfl] at hu
      exact hcos (by rw [← hu, Real.cos_pi_div_two])
    rw [if_neg hne] at hu
    refine Gives.div (IsMeaning.of_eq IsMeaning.one ?_) (reads_operand hflat hz) hne.isUnit
    rw [← hu, Unary.real, Real.tan_arctan, one_div_mul_cancel hne]
  · exact hplain

theorem gives_cotan_readsAs (h : (unary .cotan a).real? I ρ = some w) :
    Gives (Merging I ρ) (ReadsAs I ρ) (cotan a) w := by
  have hplain : ReadsAs I ρ (unary .cotan a) w := reads_unary hflat h
  obtain ⟨u, ha, -, rfl⟩ := exists_of_real?_elementary rfl h
  unfold cotan
  split
  · obtain ⟨z, hz, hu⟩ := exists_of_real?_unary ha
    rw [Unary.real?_acotan, Option.some.injEq] at hu
    refine IsMeaning.of_eq (reads_operand hflat hz) ?_
    rw [← hu, Unary.real]
    split
    · rw [Real.cos_pi_div_two, zero_div]
      assumption
    · rw [← one_div_div, ← Real.tan_eq_sin_div_cos, Real.tan_arctan, one_div_one_div]
  · exact hplain

/-- On its principal branch the inverse cotangent undoes the cotangent. -/
theorem gives_acotan_readsAs (h : (unary .acotan a).real? I ρ = some w)
    (hsafe : Unary.acotan.CollapsesSafely I ρ a) :
    Gives (Merging I ρ) (ReadsAs I ρ) (acotan a) w := by
  have hplain : ReadsAs I ρ (unary .acotan a) w := reads_unary hflat h
  obtain ⟨u, ha, hw⟩ := exists_of_real?_unary h
  rw [Unary.real?_acotan, Option.some.injEq] at hw
  unfold acotan
  split
  · obtain ⟨z, hz, hsin, rfl⟩ := exists_of_real?_elementary rfl ha
    obtain ⟨hlt, hle⟩ := hsafe z hz
    refine IsMeaning.of_eq (reads_operand hflat hz) ?_
    rw [← hw, Unary.real]
    split
    · rename_i hcot
      have hcos : Real.cos z = 0 := (div_eq_zero_iff.mp hcot).resolve_right hsin
      exact hle.eq_or_lt.resolve_right fun hlt' =>
        (Real.cos_pos_of_mem_Ioo ⟨hlt, hlt'⟩).ne' hcos
    · rename_i hcot
      have hcos : Real.cos z ≠ 0 := fun hcos => hcot (by rw [hcos, zero_div])
      have hne : z ≠ Real.pi / 2 := by
        rintro rfl
        exact hcos Real.cos_pi_div_two
      rw [one_div_div, ← Real.tan_eq_sin_div_cos, Real.arctan_tan hlt (hle.lt_of_ne hne)]
  · exact hplain

theorem gives_ln_readsAs (h : (unary .ln a).real? I ρ = some w) :
    Gives (Merging I ρ) (ReadsAs I ρ) (ln a) w := by
  have hplain : ReadsAs I ρ (unary .ln a) w := reads_unary hflat h
  obtain ⟨u, ha, -, rfl⟩ := exists_of_real?_elementary rfl h
  unfold ln
  split
  · obtain ⟨z, hz, -, rfl⟩ := exists_of_real?_elementary rfl ha
    exact IsMeaning.of_eq (reads_operand hflat hz) (Real.log_exp z).symm
  · exact hplain

theorem gives_exp_readsAs (h : (unary .exp a).real? I ρ = some w) :
    Gives (Merging I ρ) (ReadsAs I ρ) (exp a) w := by
  have hplain : ReadsAs I ρ (unary .exp a) w := reads_unary hflat h
  obtain ⟨u, ha, -, rfl⟩ := exists_of_real?_elementary rfl h
  unfold exp
  split
  · obtain ⟨z, hz, hpos, rfl⟩ := exists_of_real?_elementary rfl ha
    exact IsMeaning.of_eq (reads_operand hflat hz) (Real.exp_log hpos).symm
  split
  · rename_i hzero
    refine IsMeaning.of_eq (IsMeaning.one (D := ReadsAs I ρ)) ?_
    rw [IsMeaning.eq_zero ((readsAs_iff hflat).mpr ha) hzero, Unary.real, Real.exp_zero]
  · exact hplain

theorem reads_of_run_unaryRule {op : Unary} (h : (unary op a).real? I ρ = some w)
    (hsafe : op.CollapsesSafely I ρ a) (hs : (unaryRule op a).run .unrounded = .ok s) :
    ReadsAs I ρ s w := by
  cases op with
  | sqrt =>
    obtain ⟨u, ha, hu, rfl⟩ := exists_of_real?_elementary rfl h
    exact fulfills_merging.run (gives_sqrt_readsAs hflat ha hu hsafe) hs
  | sin => exact reads_of_run_sin hflat h hsafe hs
  | cos => exact reads_of_run_cos hflat h hsafe hs
  | tan => exact fulfills_merging.run (gives_tan_readsAs hflat h) hs
  | cotan => exact fulfills_merging.run (gives_cotan_readsAs hflat h) hs
  | acotan => exact fulfills_merging.run (gives_acotan_readsAs hflat h hsafe) hs
  | ln => exact fulfills_merging.run (gives_ln_readsAs hflat h) hs
  | exp => exact fulfills_merging.run (gives_exp_readsAs hflat h) hs
  | _ =>
    cases hs
    exact reads_unary hflat h

end

/-! ### Whole trees -/

theorem reads_operation (ha : a.IsFlat) (hb : b.IsFlat)
    (hsafe : op.CollapsesSafely I ρ a b) (h : (binary op a b).real? I ρ = some w) :
    ReadsAs I ρ (binary op a b) w := by
  cases hnests : nests op a b with
  | false => exact (readsAs_iff (t := binary op a b) ⟨ha, hb, hnests⟩).mpr h
  | true =>
    obtain ⟨p, m, n, rfl, rfl, rfl⟩ := exists_of_nests hnests
    obtain ⟨u, y, hu, hy, hw⟩ := real?_power_number rfl h
    obtain ⟨-, x, -, hx, -⟩ := real?_power_number rfl hu
    have hread := reads_merged ha hu (hsafe y hy) hx hw
    refine Reads.literalPower_iff.mpr ⟨y, hy, Reads.literalPower_iff.mpr ⟨x, hx, ?_⟩⟩
    rwa [mul_one]

/-- Where all steps are harmless, the pass keeps the value of the tree. -/
theorem real?_of_run_pass (hsafe : t.CollapsesSafely I ρ)
    (hs : (pass t).run .unrounded = .ok s) (h : t.real? I ρ = some w) : s.real? I ρ = some w := by
  have hflat := isFlat_of_run_pass (hasFiniteNumbers_of_real? h) hs
  induction t generalizing s w with
  | number | var =>
    cases hs
    exact h
  | unary op a ih =>
    obtain ⟨p, hp, hs⟩ := exists_of_run_pass_unary hs
    obtain ⟨u, ha, hw⟩ := exists_of_real?_unary h
    have hpflat := isFlat_of_run_pass (hasFiniteNumbers_of_real? ha) hp
    have hvalue : (unary op p).real? I ρ = some w :=
      Option.bind_eq_some_iff.mpr ⟨u, ih hsafe.1 hp ha hpflat, hw⟩
    have hop := hsafe.2 p (unrounded_isPartOf_working.run hp)
    exact (readsAs_iff hflat).mp (reads_of_run_unaryRule hpflat hvalue hop hs)
  | binary op a b iha ihb =>
    obtain ⟨p, q, hp, hq, hs⟩ := exists_of_run_pass_binary hs
    obtain ⟨u, ha, h⟩ := Option.bind_eq_some_iff.mp h
    obtain ⟨v, hb, hw⟩ := Option.bind_eq_some_iff.mp h
    have hpflat := isFlat_of_run_pass (hasFiniteNumbers_of_real? ha) hp
    have hqflat := isFlat_of_run_pass (hasFiniteNumbers_of_real? hb) hq
    have hvalue : (binary op p q).real? I ρ = some w :=
      Option.bind_eq_some_iff.mpr ⟨u, iha hsafe.1 hp ha hpflat,
        Option.bind_eq_some_iff.mpr ⟨v, ihb hsafe.2.1 hq hb hqflat, hw⟩⟩
    have hop := hsafe.2.2 p q (unrounded_isPartOf_working.run hp)
      (unrounded_isPartOf_working.run hq)
    have hread := reads_operation hpflat hqflat hop hvalue
    have hgives : Gives (Merging I ρ) (ReadsAs I ρ) (Plan.combine op p q) w :=
      fun _ hs => hs.reads _ hread
    exact (readsAs_iff hflat).mp (fulfills_merging.run hgives hs)

end Simplify

namespace Tree
variable {I : RealInterpretation} {ρ : String → ℝ} {t s : Tree} {w : ℝ}

/-- Where all steps are harmless and no number is rounded, the simplified tree has the value of the
tree. -/
theorem realValue_simplify (hsafe : t.CollapsesSafely I ρ) (hs : t.simplify = .ok s)
    (hunrounded : (pass t).IsUnrounded) (h : t.real? I ρ = some w) : s.real? I ρ = some w := by
  obtain ⟨r, hr⟩ := hunrounded
  obtain rfl := Except.ok.inj ((unrounded_isPartOf_working.run hr).symm.trans hs)
  exact real?_of_run_pass hsafe hr h

/-! ### Values at a point -/

theorem real?_power_of_powerIs {a : Tree} {c : Decimal} {q : ℚ} {u : ℝ} (ha : a.real? I ρ = some u)
    (hc : c.toRat? = some q) (hw : PowerIs u q w) :
    (binary .power a (number c)).real? I ρ = some w := by
  have hb : (number c).real? I ρ = some (q : ℝ) := by simp [real?, hc]
  exact Option.bind_eq_some_iff.mpr ⟨u, ha, Option.bind_eq_some_iff.mpr
    ⟨q, hb, Binary.real?_power_iff.mpr hw⟩⟩

theorem real?_elementary {op : Unary} {a : Tree} {u : ℝ} (hop : op.isElementary = true)
    (ha : a.real? I ρ = some u) (hu : u ∈ op.domain) :
    (unary op a).real? I ρ = some (op.real u) :=
  Option.bind_eq_some_iff.mpr ⟨u, ha, (Unary.real?_iff hop).mpr ⟨hu, rfl⟩⟩

/-- The root of `x ^ 4` is `x ^ 2`, also where `x` is negative. -/
theorem realValue_simplify_fourth_power :
    (binary .power (var "x") two).real? default (fun _ => -3) = some 9 := by
  have hfour : (Decimal.ofNat 4).toRat? = some ((4 : ℤ) : ℚ) := by
    decide +kernel
  have hexact : (pass (unary .sqrt (binary .power (var "x") (number (.ofNat 4))))).IsExact := by
    decide +kernel
  have hvalue : (unary .sqrt (binary .power (var "x") (number (.ofNat 4)))).real? default
      (fun _ => -3) = some 9 := by
    have hpower : (binary .power (var "x") (number (.ofNat 4))).real? default (fun _ => -3) =
        some (9 * 9) :=
      real?_power_of_powerIs rfl hfour ⟨.inr (.inr ⟨4, by norm_num⟩), by norm_num⟩
    rw [real?_elementary rfl hpower (by norm_num [Unary.domain]), Unary.real,
      Real.sqrt_mul_self (by norm_num)]
  refine realValue_simplify (t := unary .sqrt (binary .power (var "x") (number (.ofNat 4)))) ?_
    (by rfl) hexact.isUnrounded hvalue
  refine ⟨⟨trivial, trivial, fun p q hp hq => ?_⟩, fun p hp => ?_⟩
  · cases hp
    cases hq
    exact fun _ _ => trivial
  · obtain rfl : binary .power (var "x") (number (.ofNat 4)) = p := Except.ok.inj hp
    intro z m _ hm
    obtain rfl := Option.some.inj (hfour.symm.trans hm)
    exact .inr (.inr ⟨1, by norm_num⟩)

/-- A root or a power of a power loses a sign where the base is negative, also the root that takes
the place of a sine, and the inverse cotangent of a cotangent is not the angle off the principal
branch. Besides, the product of two exponents is rounded to the working precision, here to an even
number. -/
theorem realValue_simplify_collapsed :
    ((unary .sqrt (binary .power (var "x") two)).simplify = .ok (var "x") ∧
      (unary .sqrt (binary .power (var "x") two)).real? default (fun _ => -1) = some 1) ∧
    ((binary .power (binary .power (var "x") two) (number (.finite false 5 (-1)))).simplify =
        .ok (var "x") ∧
      (binary .power (binary .power (var "x") two) (number (.finite false 5 (-1)))).real? default
        (fun _ => -1) = some 1) ∧
    ((unary .sin (unary .acos (binary .power (binary .minus one (binary .power (var "x") two))
        (number (.finite false 5 (-1)))))).simplify = .ok (var "x") ∧
      (unary .sin (unary .acos (binary .power (binary .minus one (binary .power (var "x") two))
        (number (.finite false 5 (-1)))))).real? default (fun _ => -1) = some 1) ∧
    (var "x").real? default (fun _ => -1) = some (-1) ∧
    ((unary .acotan (unary .cotan two)).simplify = .ok two ∧
      (unary .acotan (unary .cotan two)).real? default (fun _ => 0) = some (2 - Real.pi) ∧
      two.real? default (fun _ => 0) = some 2) ∧
    ((binary .power (binary .power (var "x") (number (.ofNat (10 ^ 50 + 1))))
        (number (.ofNat 3))).simplify =
        .ok (binary .power (var "x") (number (.finite false (3 * 10 ^ 49) 1))) ∧
      (binary .power (binary .power (var "x") (number (.ofNat (10 ^ 50 + 1))))
        (number (.ofNat 3))).real? default (fun _ => -1) = some (-1) ∧
      (binary .power (var "x") (number (.finite false (3 * 10 ^ 49) 1))).real? default
        (fun _ => -1) = some 1) := by
  have hsquare : (binary .power (var "x") two).real? default (fun _ => -1) = some 1 :=
    real?_power_of_powerIs rfl Decimal.toRat?_two ⟨.inr (.inr ⟨2, by norm_num⟩), by norm_num⟩
  have hhalf : (Decimal.finite false 5 (-1)).toRat? = some (1 / 2) := by
    decide +kernel
  have htwo : two.real? default (fun _ => 0) = some 2 := by
    simp [two, real?, Decimal.toRat?_two]
  have hlong : (Decimal.ofNat (10 ^ 50 + 1)).toRat? = some ((10 ^ 50 + 1 : ℤ) : ℚ) := by
    decide +kernel
  have hthree : (Decimal.ofNat 3).toRat? = some ((3 : ℤ) : ℚ) := by
    decide +kernel
  have hrounded : (Decimal.finite false (3 * 10 ^ 49) 1).toRat? = some ((3 * 10 ^ 50 : ℤ) : ℚ) := by
    decide +kernel
  refine ⟨⟨by rfl, ?_⟩, ⟨by decide +kernel, ?_⟩, ⟨by decide +kernel, ?_⟩, rfl, ⟨by rfl, ?_, ?_⟩,
    by decide +kernel, ?_, ?_⟩
  · rw [real?_elementary rfl hsquare (by norm_num [Unary.domain]), Unary.real, Real.sqrt_one]
  · exact real?_power_of_powerIs hsquare hhalf ⟨.inl one_pos, by simp⟩
  · have hdifference : (binary .minus one (binary .power (var "x") two)).real? default
        (fun _ => -1) = some 0 := by
      rw [real?, hsquare]
      simp [one, real?, Decimal.toRat?_one]
    have hroot := real?_power_of_powerIs hdifference hhalf (PowerIs.zero_of_pos (by norm_num))
    have hdomain : (0 : ℝ) ∈ Unary.acos.domain := by norm_num [Unary.domain]
    have hright : Unary.acos.real 0 ∈ Unary.sin.domain := trivial
    rw [real?_elementary rfl (real?_elementary rfl hroot hdomain) hright, Unary.real, Unary.real,
      Real.arccos_zero, Real.sin_pi_div_two]
  · have hpi := Real.pi_gt_three
    have hpi' := Real.pi_lt_d2
    have hsin : Real.sin 2 ≠ 0 := (Real.sin_pos_of_pos_of_lt_pi (by norm_num) (by linarith)).ne'
    have hcos : Real.cos 2 ≠ 0 :=
      (Real.cos_neg_of_pi_div_two_lt_of_lt (by linarith) (by linarith)).ne
    refine Option.bind_eq_some_iff.mpr ⟨_, real?_elementary rfl htwo hsin, ?_⟩
    rw [Unary.real?_acotan, Unary.real, if_neg (div_ne_zero hcos hsin), one_div_div,
      ← Real.tan_eq_sin_div_cos, ← Real.tan_sub_pi, Real.arctan_tan (by linarith) (by linarith)]
  · exact htwo
  · refine real?_power_of_powerIs (u := -1) ?_ hthree (.neg_one_odd (by decide))
    exact real?_power_of_powerIs rfl hlong (.neg_one_odd (by decide))
  · exact real?_power_of_powerIs rfl hrounded (.neg_one_even (by decide))

end Tree

end Reckon
