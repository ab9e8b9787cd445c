import Reckon.Proofs.Results
import Reckon.Session.Differentiator

/-!
# Calls on a differentiator

What a call returns and what it leaves, one lemma for each way of putting calls together
(`Returns`). Asked for derivatives, a differentiator reads the formula and simplifies it. Then it
answers for each of the names that are asked for, in their order, with the simplified derivative
written down (`run_derivatives`). On no call stack does it matter what was asked for before
(`fst_run_derivatives`).
-/

namespace Reckon

/-! ### Answers -/

namespace Tree

/-- The simplified derivative, written as a formula. -/
def derivativeText (t : Tree) (x : String) (stack : CallStack := .boundless) :
    Except Failure String := do
  let d ← stack.carrying t (t.derivative x)
  let d ← stack.carrying d d.simplifyFully
  return String.ofList (Formula.collapseSigns (← stack.carrying d d.formula))

/-- The variables with the given names, each with the derivative. No derivative is taken if one of
the names is refused. -/
def answers (t : Tree) (names : List (List Char)) (stack : CallStack := .boundless) :
    Except Failure (List (String × String)) := do
  names.forM Targets.checkName
  names.mapM fun x => return (String.ofList x, ← t.derivativeText (String.ofList x) stack)

theorem derivativeText_eq_ok_iff {t : Tree} {x answer : String} :
    t.derivativeText x = .ok answer ↔ ∃ dt dts text, t.derivative x = .ok dt ∧
      dt.simplifyFully = .ok dts ∧ dts.formula = .ok text ∧
      answer = String.ofList (Formula.collapseSigns text) := by
  constructor
  · intro h
    obtain ⟨dt, hdt, h⟩ := bind_eq_ok_iff.mp h
    obtain ⟨dts, hdts, h⟩ := bind_eq_ok_iff.mp h
    obtain ⟨text, htext, h⟩ := bind_eq_ok_iff.mp h
    exact ⟨dt, dts, text, hdt, hdts, htext, (Except.ok.inj h).symm⟩
  · rintro ⟨dt, dts, text, hdt, hdts, htext, rfl⟩
    exact bind_eq_ok_iff.mpr ⟨dt, hdt, bind_eq_ok_iff.mpr ⟨dts, hdts,
      bind_eq_ok_iff.mpr ⟨text, htext, rfl⟩⟩⟩

/-- There are answers exactly if there is one for each name. -/
theorem answers_eq_ok_iff {t : Tree} {names : List (List Char)} {pairs : List (String × String)} :
    t.answers names = .ok pairs ↔
      List.Forall₂ (fun x pair => Targets.checkName x = .ok ⟨⟩ ∧ pair.1 = String.ofList x ∧
        t.derivativeText (String.ofList x) = .ok pair.2) names pairs := by
  have hpair : ∀ {x : List Char} {pair : String × String},
      (do return (String.ofList x, ← t.derivativeText (String.ofList x))) = .ok pair ↔
        pair.1 = String.ofList x ∧ t.derivativeText (String.ofList x) = .ok pair.2 := by
    intro x pair
    rw [bind_eq_ok_iff]
    constructor
    · rintro ⟨answer, hanswer, h⟩
      cases h
      exact ⟨rfl, hanswer⟩
    · rintro ⟨hx, hanswer⟩
      exact ⟨pair.2, hanswer, congrArg Except.ok (Prod.ext hx.symm rfl)⟩
  rw [List.forall₂_and_left, answers, bind_eq_ok_iff]
  constructor
  · rintro ⟨⟨⟩, hnames, h⟩
    exact ⟨forM_eq_ok_iff.mp hnames, (mapM_eq_ok_iff.mp h).imp fun _ _ => hpair.mp⟩
  · rintro ⟨hnames, h⟩
    exact ⟨⟨⟩, forM_eq_ok_iff.mpr hnames, mapM_eq_ok_iff.mpr (h.imp fun _ _ => hpair.mpr)⟩

end Tree

namespace Differentiator
variable {α β : Type}

/-! ### What is remembered -/

/-- The call comes to `r` whatever is remembered, and leaves the variables alone. -/
def Returns (call : Call α) (r : Except Failure α) : Prop :=
  ∀ d, ∃ d', call.run d = (r, d') ∧ d'.unknowns = d.unknowns

namespace Returns

theorem pure (a : α) : Returns (pure a) (.ok a) :=
  fun d => ⟨d, rfl, rfl⟩

theorem ofExcept (r : Except Failure α) : Returns (MonadExcept.ofExcept r) r :=
  fun d => ⟨d, run_ofExcept r d, rfl⟩

theorem note (event : Event) : Returns (note event) (.ok ()) :=
  fun _ => ⟨_, rfl, rfl⟩

theorem bind {call : Call α} {r : Except Failure α} {next : α → Call β}
    {rest : α → Except Failure β} (h : Returns call r) (hnext : ∀ a, Returns (next a) (rest a)) :
    Returns (call >>= next) (r >>= rest) := by
  intro d
  obtain ⟨d₁, hrun, hkept⟩ := h d
  cases r with
  | error f => exact ⟨d₁, by rw [run_bind, hrun]; rfl, hkept⟩
  | ok a =>
    obtain ⟨d₂, hrun', hkept'⟩ := hnext a d₁
    exact ⟨d₂, by rw [run_bind, hrun]; exact hrun', hkept'.trans hkept⟩

theorem mapM {f : α → Call β} {g : α → Except Failure β} (hf : ∀ a, Returns (f a) (g a))
    (l : List α) : Returns (l.mapM f) (l.mapM g) := by
  induction l with
  | nil => exact pure []
  | cons a l ih =>
    rw [List.mapM_cons, List.mapM_cons]
    exact (hf a).bind fun b => ih.bind fun r => pure (b :: r)

theorem forM {f : α → Call PUnit} {g : α → Except Failure PUnit} (hf : ∀ a, Returns (f a) (g a))
    (l : List α) : Returns (l.forM f) (l.forM g) := by
  induction l with
  | nil => exact pure PUnit.unit
  | cons a l ih => exact (hf a).bind fun _ => ih

theorem simplified (t : Tree) (stack : CallStack) :
    Returns (simplified t stack) (stack.carrying t t.simplifyFully) := by
  have h : stack.carrying t t.simplifyFully =
      stack.carrying t (Simplify.settle t) >>= fun settled => .ok settled.tree := by
    unfold CallStack.carrying Tree.simplifyFully
    split <;> rfl
  rw [h]
  exact (ofExcept _).bind fun settled => (note _).bind fun _ => pure settled.tree

theorem derivative (s : List Char) (t : Tree) (x : String) (stack : CallStack) :
    Returns (derivative s t x stack) (t.derivativeText x stack) :=
  (ofExcept _).bind fun _ => (simplified _ stack).bind fun _ => (ofExcept _).bind fun _ =>
    (note _).bind fun _ => pure _

/-- The derivatives of a simplified tree for the variables with the given names. -/
theorem answers (s : List Char) (t : Tree) (names : List (List Char)) (stack : CallStack) :
    Returns (do
      names.forM fun x => MonadExcept.ofExcept (Targets.checkName x)
      names.mapM fun x => do
        let x := String.ofList x
        return (x, ← Differentiator.derivative s t x stack)) (t.answers names stack) :=
  (forM (fun _ => ofExcept _) names).bind fun _ =>
    mapM (fun _ => (derivative s t _ stack).bind fun _ => pure _) names

end Returns

/-! ### The calls -/

theorem run_tree (s : List Char) (stack : CallStack) (d : Differentiator) :
    (tree s stack).run d =
      match stack.readFormula s with
      | .ok t => (.ok t, { d with unknowns := t.unknowns })
      | .error f => (.error f, d) := by
  rw [tree, run_bind, run_ofExcept]
  cases stack.readFormula s with
  | error f => rfl
  | ok t => rfl

section
variable {stack : CallStack} {s : List Char}

theorem run_derivativesOn_of_error {f : Failure} (h : stack.readFormula s = .error f)
    (targets : Targets) (d : Differentiator) :
    (derivatives targets s stack).run d = (.error f, d) := by
  rw [derivatives, run_bind, run_tree, h]

/-- What the derivatives of a formula come to does not depend on what was differentiated before.
Whether derivatives are returned or not, the variables of the formula are remembered. -/
theorem run_derivativesOn {t : Tree} (h : stack.readFormula s = .ok t) (targets : Targets)
    (d : Differentiator) :
    ∃ d', (derivatives targets s stack).run d =
        (stack.carrying t t.simplifyFully >>= fun ts =>
          ts.answers (targets.resolve t.unknowns) stack, d') ∧
      d'.unknowns = t.unknowns := by
  rw [derivatives, run_bind, run_tree, h]
  -- once the formula is read, the variables that were remembered before are gone
  obtain ⟨d₁, hrun, hkept⟩ := Returns.simplified t stack { d with unknowns := t.unknowns }
  simp only
  rw [run_bind, hrun]
  cases stack.carrying t t.simplifyFully with
  | error f => exact ⟨d₁, rfl, hkept⟩
  | ok ts =>
    obtain ⟨d₂, hrun', hkept'⟩ := Returns.answers s ts (targets.resolve d₁.unknowns) stack d₁
    refine ⟨d₂, hrun'.trans ?_, hkept'.trans hkept⟩
    rw [hkept]
    rfl

end

theorem run_derivatives_of_error {s : List Char} {f : Failure}
    (h : Formula.readFormula s = .error f) (targets : Targets) (d : Differentiator) :
    (derivatives targets s).run d = (.error f, d) := by
  rw [← CallStack.readFormula_boundless] at h
  exact run_derivativesOn_of_error h targets d

/-- With room for everything. -/
theorem run_derivatives {s : List Char} {t : Tree} (h : Formula.readFormula s = .ok t)
    (targets : Targets) (d : Differentiator) :
    ∃ d', (derivatives targets s).run d =
        (t.simplifyFully >>= fun ts => ts.answers (targets.resolve t.unknowns), d') ∧
      d'.unknowns = t.unknowns := by
  rw [← CallStack.readFormula_boundless] at h
  exact run_derivativesOn h targets d

theorem unknowns_run_derivatives {s : List Char} {t : Tree}
    (h : Formula.readFormula s = .ok t) (targets : Targets) (d : Differentiator) :
    ((derivatives targets s).run d).2.unknowns = t.unknowns := by
  obtain ⟨d', hrun, hkept⟩ := run_derivatives h targets d
  rw [hrun, hkept]

/-- Any two differentiators come to the same derivatives. -/
theorem fst_run_derivatives (targets : Targets) (s : List Char) (stack : CallStack)
    (d d' : Differentiator) :
    ((derivatives targets s stack).run d).1 = ((derivatives targets s stack).run d').1 := by
  cases hread : stack.readFormula s with
  | error f => rw [run_derivativesOn_of_error hread, run_derivativesOn_of_error hread]
  | ok t =>
    obtain ⟨d₁, hrun, -⟩ := run_derivativesOn hread targets d
    obtain ⟨d₂, hrun', -⟩ := run_derivativesOn hread targets d'
    rw [hrun, hrun']

/-- Every answer is for a variable that was asked for. -/
theorem exists_of_run_derivatives {targets : Targets} {s : List Char}
    {answers : List (String × String)} {d d' : Differentiator}
    (h : (derivatives targets s).run d = (.ok answers, d')) :
    ∃ t ts, Formula.readFormula s = .ok t ∧ t.simplifyFully = .ok ts ∧
      ∀ x answer, (x, answer) ∈ answers →
        x.toList ∈ targets.resolve t.unknowns ∧ Targets.checkName x.toList = .ok ⟨⟩ ∧
        ∃ dt dts text, ts.derivative x = .ok dt ∧ dt.simplifyFully = .ok dts ∧
          dts.formula = .ok text ∧ answer = String.ofList (Formula.collapseSigns text) := by
  cases hread : Formula.readFormula s with
  | error f =>
    rw [run_derivatives_of_error hread] at h
    cases h
  | ok t =>
    obtain ⟨d₁, hrun, -⟩ := run_derivatives hread targets d
    rw [hrun] at h
    obtain ⟨ts, hts, hanswers⟩ := bind_eq_ok_iff.mp (Prod.ext_iff.mp h).1
    refine ⟨t, ts, rfl, hts, fun x answer hmem => ?_⟩
    obtain ⟨name, hname, hcheck, hx, hanswer⟩ :=
      exists_of_forall₂ (Tree.answers_eq_ok_iff.mp hanswers) hmem
    obtain rfl : x = String.ofList name := hx
    rw [String.toList_ofList]
    exact ⟨hname, hcheck, Tree.derivativeText_eq_ok_iff.mp hanswer⟩

end Differentiator

end Reckon
