import Reckon.Proofs.Foreseen

/-!
# Finite answers

An evaluation keeps to finite numbers at every node, so its value is one
(`Evaluator.run_evaluate_finite`). Nothing is assumed about the functions of doubles: an infinity,
or what is no number, is a failure of the operator in which it comes up.
-/

namespace Reckon

/-- No number, or one that is finite. -/
def Bound.isFinite (bound : Bound) : Bool :=
  match bound.content with
  | .ok (.inl a) => a.isFinite
  | _ => true

/-- No number that a name is bound to is infinite or undefined. -/
def Bindings.HasFiniteNumbers (b : Bindings) : Prop :=
  ∀ p ∈ b, p.2.isFinite = true

namespace Bindings.HasFiniteNumbers
variable {b : Bindings}

theorem normalized (h : b.HasFiniteNumbers) : b.normalized.HasFiniteNumbers :=
  forall_mem_normalized (P := fun bound => bound.isFinite = true) h

theorem lookup? (h : b.HasFiniteNumbers) {x : String} {bound : Bound} {a : Decimal}
    (hx : b.lookup? x = some bound) (ha : bound.content = .ok (.inl a)) : a.isFinite = true := by
  have hbound := of_lookup?_eq_some (P := fun bound => bound.isFinite = true) h hx
  rwa [Bound.isFinite, ha] at hbound

end Bindings.HasFiniteNumbers

namespace Tree
variable {b : Bindings} {resolving : List String}

/-- A variable has a finite value if the texts that are followed have. -/
theorem yieldsFinite_resolve {follow : List Char → Except Failure Decimal}
    (hfollow : ∀ s, YieldsFinite (follow s)) (hb : b.HasFiniteNumbers) (x : String) :
    YieldsFinite (resolve b resolving follow x) := by
  unfold resolve
  split
  · rename_i a ha
    exact yields_pure.mpr (isFinite_of_namedConstant? ha)
  split
  · exact yields_throw _
  rename_i hx
  refine yields_guarded ?_
  split
  · exact yields_throw _
  · rename_i a ha
    exact yields_pure.mpr (hb.lookup? hx ha)
  simp only
  split
  · rename_i hliteral
    split
    · rename_i a ha
      exact yields_pure.mpr (Formula.isFinite_of_isLiteral hliteral ha)
    · exact yields_throw _
  · exact hfollow _

variable [Binary64.Library]

theorem yieldsFinite_chainValue {below : Tree → Except Failure Decimal}
    (hbelow : ∀ t, t.hasFiniteNumbers = true → YieldsFinite (below t)) {t : Tree}
    (ht : t.hasFiniteNumbers = true) :
    YieldsFinite (chainValue below t) := by
  induction t with
  | number | var | unary => exact hbelow _ ht
  | binary op l r ihl _ =>
    obtain ⟨hl, hr⟩ := Bool.and_eq_true_iff.mp ht
    rw [chainValue_binary]
    exact (ihl hl).bind fun _ hl => (hbelow r hr).bind fun _ hr => op.yieldsFinite_apply hl hr

/-- What is read has finite numbers, operators keep to them: no node has another value. -/
theorem yieldsFinite_valueLevels (unit : AngleUnit) (hb : b.HasFiniteNumbers) (levels : Nat)
    {t : Tree} (ht : t.hasFiniteNumbers = true) :
    YieldsFinite (valueLevels Formula.readFormula unit b levels resolving t) := by
  induction levels generalizing resolving t with
  | zero => exact yields_throw _
  | succ levels ih =>
    cases t with
    | number a => exact yields_pure.mpr ht
    | var x =>
      rw [valueLevels_var]
      refine yieldsFinite_resolve (fun s => ?_) hb x
      exact (Formula.yields_readFormula s).bind fun t ht => ih ht
    | unary op a =>
      rw [valueLevels_unary]
      exact (ih (t := a) ht).bind fun _ ha => op.yieldsFinite_apply unit ha
    | binary op l r =>
      rw [valueLevels_binary]
      exact yieldsFinite_chainValue (fun _ => ih) ht

end Tree

theorem Formula.yieldsFinite_evaluate [Binary64.Library] (unit : AngleUnit) {bindings : Bindings}
    (hbindings : bindings.HasFiniteNumbers) (s : List Char) :
    YieldsFinite (evaluate unit bindings s) := by
  refine (yields_readFormula s).bind fun t ht => ?_
  unfold Tree.value
  exact Tree.yieldsFinite_valueLevels unit hbindings.normalized _ ht

namespace Evaluator

/-- Whatever a formula is, whatever was asked before, and however the functions of doubles are
computed: where every number that is bound is finite, so is every value. -/
theorem run_evaluate_finite [Binary64.Library] (unit : AngleUnit) (requests : List Request)
    (bindings : Bindings) (hbindings : bindings.HasFiniteNumbers) (s : List Char) (a : Decimal)
    (ha : ((evaluate bindings s).run (after requests (new unit))).1 = .ok a) :
    a.isFinite = true := by
  rw [fst_run_evaluate_after] at ha
  exact Formula.yieldsFinite_evaluate _ hbindings s a ha

/-- An angle in degrees, an exponential that is bound as a text, and a root through doubles. -/
theorem run_evaluate_finite_angle :
    let bindings : Bindings :=
      [("X", .number (.ofNat 30)), ("y", .text ['e', 'x', 'p', '(', 'x', '/', '8', ')'])]
    let s := ['s', 'i', 'n', '(', 'x', ')', '*', 'y', '^', '0', '.', '5']
    let a : Decimal := .finite false 326040956016505625 (-17)
    bindings.HasFiniteNumbers ∧
      ((evaluate bindings s).run (after [.selectUnit "DEG"] (new .rad))).1 = .ok a ∧
      a.isFinite = true := by
  intro bindings s a
  have hbindings : bindings.HasFiniteNumbers := by
    unfold Bindings.HasFiniteNumbers
    decide
  have ha : ((evaluate bindings s).run (after [.selectUnit "DEG"] (new .rad))).1 = .ok a := by
    decide +kernel
  exact ⟨hbindings, ha, run_evaluate_finite .rad [.selectUnit "DEG"] bindings hbindings s a ha⟩

end Evaluator

end Reckon
