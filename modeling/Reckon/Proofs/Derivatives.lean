import Reckon.Proofs.Calls
import Reckon.Proofs.DualDerivatives
import Reckon.Proofs.PartialDerivative
import Reckon.Proofs.RoundTrip
import Reckon.Proofs.Simplification
import Reckon.Proofs.TargetNames

/-!
# What derivatives denote

A differentiator that is asked for the derivative of a rational formula answers with a text. Read
back, it denotes the partial derivative of the rational function that the formula denotes, wherever
that is defined and as long as no number is rounded (`partialDerivative_of_run_derivatives`).

The meanings are followed through simplifying, deriving and simplifying again
(`exists_means_derivation`): in the rationals for the value, and in the algebra with one element to
see that the derivative is a rational tree in the variables of the formula.
-/

namespace Reckon

open DualNumber
open Reckon.Tree (number var unary binary)

/-! ### Variables with a value -/

/-- The values of the variables with the given names only. -/
def restricted {K : Type} (names : List String) (ρ : String → Option K) : String → Option K :=
  fun y => if y ∈ names then ρ y else none

theorem eq_of_restricted {K : Type} {names : List String} {ρ : String → Option K} {y : String}
    {u : K} (h : restricted names ρ y = some u) : y ∈ names ∧ ρ y = some u := by
  rw [restricted] at h
  split at h
  · exact ⟨‹_›, h⟩
  · cases h

section
variable {K : Type} [CommRing K] [Algebra ℚ K] {ρ : String → Option K} {t : Tree} {v : K}

theorem means_restricted (h : Means ρ t v) : Means (restricted t.names ρ) t v := by
  refine h.mono ?_
  intro y hy u hu
  rw [restricted, if_pos hy]
  exact hu

end

namespace Tree

/-- No number in the tree loses a digit when it is displayed. -/
def IsShown : Tree → Prop
  | number a => a.IsShown
  | var _ => True
  | unary _ a => a.IsShown
  | binary _ a b => a.IsShown ∧ b.IsShown

theorem isPrintable_of_means {K : Type} [CommRing K] [Algebra ℚ K] {ρ : String → Option K}
    {t : Tree} {v : K} (h : Means ρ t v) (ht : t.IsShown)
    (hnames : ∀ y ∈ t.names, Formula.IsNeat y.toList ∧ Formula.hasOperator y.toList = false) :
    t.IsPrintable := by
  induction t generalizing v with
  | number a => exact ht
  | var x => exact hnames x (List.mem_singleton_self x)
  | unary op a => exact h.elim
  | binary op a b iha ihb =>
    obtain ⟨u, w, ha, hb⟩ := h.exists_operands
    refine ⟨?_, iha ha ht.1 fun y hy => ?_, ihb hb ht.2 fun y hy => ?_⟩
    · rintro rfl
      exact h.elim
    · exact hnames y (List.mem_append_left b.names hy)
    · exact hnames y (List.mem_append_right a.names hy)

end Tree

namespace Differentiator

open Simplify

/-! ### The way to an answer -/

/-- The tree is simplified, derived and simplified again. -/
def derivation (x : String) (t : Tree) : Plan Tree := do
  let s ← settled t
  let d ← Tree.derivativePlan x s.tree
  return (← settled d).tree

/-- No number is rounded on the way to the derivative, nor when the derivative is written down. -/
def IsUnrounded (x : String) (t : Tree) : Prop :=
  ∃ d, (derivation x t).run .exact = .ok d ∧ d.IsShown

section
variable {x : String} {t s d e : Tree}

theorem exists_of_run_derivation (h : (derivation x t).run .exact = .ok e) :
    ∃ s d r, (settled t).run .exact = .ok s ∧
      (Tree.derivativePlan x s.tree).run .exact = .ok d ∧
      (settled d).run .exact = .ok r ∧ r.tree = e := by
  simp only [derivation, Plan.bind_eq, Plan.run, Plan.follow_bind] at h
  obtain ⟨s, hs, h⟩ := bind_eq_ok_iff.mp h
  obtain ⟨d, hd, h⟩ := bind_eq_ok_iff.mp h
  obtain ⟨r, hr, h⟩ := bind_eq_ok_iff.mp h
  exact ⟨s, d, r, hs, hd, hr, Except.ok.inj h⟩

/-- If no number is rounded, the way is the one that was gone. -/
theorem run_derivation (h : ∃ e, (derivation x t).run .exact = .ok e)
    (hs : t.simplifyFully = .ok s) (hd : s.derivative x = .ok d)
    (he : d.simplifyFully = .ok e) : (derivation x t).run .exact = .ok e := by
  obtain ⟨e', hrun⟩ := h
  obtain ⟨s', d', r', hs', hd', hr', rfl⟩ := exists_of_run_derivation hrun
  obtain ⟨s'', hsettle, rfl⟩ := Tree.settled_of_simplifyFully hs
  obtain rfl := Except.ok.inj ((Plan.run_working_of_exact hs').symm.trans hsettle)
  obtain rfl := Except.ok.inj ((Plan.run_working_of_exact hd').symm.trans hd)
  obtain ⟨r, hsettle', rfl⟩ := Tree.settled_of_simplifyFully he
  obtain rfl := Except.ok.inj ((Plan.run_working_of_exact hr').symm.trans hsettle')
  exact hrun

/-- What a tree means near a point, the tree at the end of the way means as the coefficient of
`ε`. -/
theorem exists_means_derivation {K : Type} [CommRing K] [Algebra ℚ K] {ρ : String → Option K}
    (hx : ∀ y v, ρ y = some v → (Text.lowercase y.toList = Text.lowercase x.toList ↔ y = x))
    {v : K} (h : Means ρ t v) (hrun : (derivation x t).run .exact = .ok e) :
    ∃ w : K[ε], Means (nearby x ρ) t w ∧ w.fst = v ∧ Means ρ e w.snd := by
  obtain ⟨s, d, r, hs, hd, hr, rfl⟩ := exists_of_run_derivation hrun
  obtain ⟨w, hw, hfst⟩ := h.exists_nearby x
  have hsettled : Means (nearby x ρ) s.tree w := (ensures_settled t).run hs w hw
  have hderivative : Means ρ d w.snd := (Gives.derivativeLevels hx _ hsettled).run hd
  exact ⟨w, hw, hfst, (ensures_settled d).run hr _ hderivative⟩

end

/-! ### Answers -/

/-- An answer is a formula for the partial derivative. Unless it is too long, or reading it goes too
deep, it is read as a tree that has, wherever the formula is defined, the value of the partial
derivative of the rational function that the formula denotes. -/
theorem partialDerivative_of_run_derivatives {source : List Char} {t : Tree}
    (hread : Formula.readFormula source = .ok t) (ht : t.isRational = true) {targets : Targets}
    {d d' : Differentiator} {answers : List (String × String)}
    (hrun : (derivatives targets source).run d = (.ok answers, d')) {x answer : String}
    (hanswer : (x, answer) ∈ answers) (hexact : IsUnrounded x t)
    (hlength : answer.toList.length ≤ maxLength) :
    ∃ p, Formula.prepare answer.toList = .ok p ∧
      (Formula.read p = .error .tooDeep ∨
        ∃ t', Formula.read p = .ok t' ∧ ∀ ρ v, t.exact .integral ρ = some v →
          t.fraction.value ρ = v ∧
            t'.exact .integral ρ = some ((t.fraction.partialDerivative x).value ρ)) := by
  obtain ⟨t₀, ts, hread', hts, hanswers⟩ := exists_of_run_derivatives hrun
  obtain rfl := Except.ok.inj (hread.symm.trans hread')
  obtain ⟨hx, hcheck, dt, e, text, hdt, he, htext, rfl⟩ := hanswers x answer hanswer
  obtain ⟨e', hunrounded, hshown⟩ := hexact
  have hderivation := run_derivation ⟨e', hunrounded⟩ hts hdt he
  obtain rfl := Except.ok.inj (hderivation.symm.trans hunrounded)
  obtain ⟨p, hp, hvalidated⟩ := bind_eq_ok_iff.mp hread
  obtain ⟨⟨⟩, -, hreadp⟩ := bind_eq_ok_iff.mp hvalidated
  -- the derivative is a rational tree in the variables of the formula, so it can be read back
  have hprintable : e.IsPrintable := by
    obtain ⟨w, -, -, hmeans⟩ := exists_means_derivation (fun y v hy =>
      Targets.lowercase_eq_iff hp hreadp hx hcheck y (eq_of_restricted hy).1)
      (means_restricted (Tree.means_of_isRational ht)) hderivation
    refine Tree.isPrintable_of_means hmeans hshown fun y hy => ?_
    obtain ⟨u, hu⟩ := Option.isSome_iff_exists.mp (hmeans.isSome y hy)
    exact Formula.isNeat_of_read hp hreadp (eq_of_restricted hu).1
  rw [String.toList_ofList] at hlength ⊢
  obtain ⟨hprepare, hback⟩ := Formula.read_formula hprintable htext hlength
  refine ⟨_, hprepare, hback.imp_right ?_⟩
  rintro ⟨t', ht', hvalue⟩
  refine ⟨t', ht', fun ρ v hv => ⟨(fraction_value ht hv).2, ?_⟩⟩
  obtain ⟨w, hw, -, hmeans⟩ := exists_means_derivation (fun y v hy =>
    Targets.lowercase_eq_iff hp hreadp hx hcheck y (eq_of_restricted hy).1)
    (means_restricted (Tree.means_of_exact ht hv)) hderivation
  have hnear : Means (nearby x fun y => some (ρ y)) t w := by
    refine hw.mono fun y hy u hu => ?_
    rwa [nearby, restricted, if_pos hy] at hu
  have hderivative : Means (fun y => some (ρ y)) e w.snd :=
    hmeans.mono fun y _ u hu => (eq_of_restricted hu).2
  rw [hvalue, ← snd_eq_partialDerivative hnear]
  exact Tree.exact_of_means hderivative

/-- The derivative of `x^2/y - 3x` is written `(y*2*x)/(y^2)-3`. -/
theorem partialDerivative_of_run_derivatives_quotient :
    let answer := "(y*2*x)/(y^2)-3".toList
    Formula.prepare answer = .ok answer ∧
      ∃ t', Formula.read answer = .ok t' ∧ ∀ ρ v,
        let t := binary .minus (binary .div (binary .power (var "x") .two) (var "y"))
          (binary .times (number (.ofNat 3)) (var "x"))
        t.exact .integral ρ = some v → t.fraction.value ρ = v ∧
          t'.exact .integral ρ = some ((t.fraction.partialDerivative "x").value ρ) := by
  intro answer
  have hread : Formula.readFormula ['x', '^', '2', '/', 'y', '-', '3', 'x'] =
      .ok (binary .minus (binary .div (binary .power (var "x") .two) (var "y"))
        (binary .times (number (.ofNat 3)) (var "x"))) := by
    decide +kernel
  have hrun : ((derivatives (.listed ['x']) ['x', '^', '2', '/', 'y', '-', '3', 'x']).run .new).1 =
      .ok [("x", "(y*2*x)/(y^2)-3")] := by
    decide +kernel
  have htwo : (Decimal.ofNat 2).IsShown :=
    ⟨['2'], .ofNat 2, 2, by decide +kernel, by decide +kernel, by decide +kernel, by decide +kernel⟩
  have hthree : (Decimal.ofNat 3).IsShown :=
    ⟨['3'], .ofNat 3, 3, by decide +kernel, by decide +kernel, by decide +kernel, by decide +kernel⟩
  have hexact : IsUnrounded "x" (binary .minus
      (binary .div (binary .power (var "x") .two) (var "y"))
      (binary .times (number (.ofNat 3)) (var "x"))) :=
    ⟨binary .minus (binary .div (binary .times (var "y") (binary .times .two (var "x")))
      (binary .power (var "y") .two)) (number (.ofNat 3)), by decide +kernel,
      ⟨⟨trivial, htwo, trivial⟩, trivial, htwo⟩, hthree⟩
  have hprepare : Formula.prepare answer = .ok answer := by decide +kernel
  have hshallow : Formula.read answer ≠ .error .tooDeep := by decide +kernel
  obtain ⟨p, hp, hback⟩ := partialDerivative_of_run_derivatives hread (by decide)
    (Prod.ext hrun rfl) (List.mem_singleton_self _) hexact (by decide +kernel)
  obtain rfl := Except.ok.inj (hprepare.symm.trans hp)
  exact ⟨hprepare, hback.resolve_left hshallow⟩

end Differentiator

end Reckon
