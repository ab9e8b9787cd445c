import Reckon.Proofs.Failures
import Reckon.Proofs.Memory
import Reckon.Proofs.Unlimited

/-!
# Names defined in terms of themselves

The texts that names are bound to may refer to each other in circles. No tree that reaches such a
circle has a value (`not_isCyclic_of_unlimitedValue`), and a name that is said to be defined in
terms of itself is (`failsOnly_unlimitedValue`). References are not followed forever, whether or not
there is a limit on levels (`run_evaluate_cyclic`).
-/

namespace Reckon

/-! ### Why there is no value -/

/-- Why a tree may fail to have a value when the names are bound as in `b`. -/
inductive Bindings.Explains (b : Bindings) (t : Tree) : Failure → Prop
  | operator {f : Failure} (h : f.IsNumeric) : Explains b t f
  | unbound {x : String} (hx : b.Reaches t x) (h : b.standsFor? x = none) :
    Explains b t (.undefined (.unbound x))
  | cyclic {x : String} (hx : b.Reaches t x) (h : b.IsCyclic x) :
    Explains b t (.undefined (.cyclic x))
  | bound {x : String} {f : Failure} (hx : b.Reaches t x) (h : b.standsFor? x = some (.error f)) :
    Explains b t f

section
variable {unit : AngleUnit} {b : Bindings} {resolving : List String} {t u : Tree}

/-- What explains a failure of a part explains the failure of the whole. -/
theorem Bindings.Explains.mono {f : Failure} (h : b.Explains t f)
    (hsub : ∀ x, b.Reaches t x → b.Reaches u x) : b.Explains u f := by
  cases h with
  | operator h => exact .operator h
  | unbound hx h => exact .unbound (hsub _ hx) h
  | cyclic hx h => exact .cyclic (hsub _ hx) h
  | bound hx h => exact .bound (hsub _ hx) h

theorem FailsOnly.explains {α : Type} {r : Except Failure α} (h : FailsOnly (b.Explains t) r)
    (hsub : ∀ x, b.Reaches t x → b.Reaches u x) : FailsOnly (b.Explains u) r :=
  fun f hf => (h f hf).mono hsub

/-- What a name stands for fails to be a tree because of its text, or has no text. -/
theorem Bindings.failsOnly_of_standsFor? {b : Bindings} {x : String} {r : Except Failure Tree}
    (h : b.standsFor? x = some r) :
    FailsOnly (fun f => f.IsOfReading ∨ f = .signal .invalidOperation ∨ f = .integerTooLong) r := by
  obtain ⟨-, bound, -, rfl⟩ := standsFor?_eq_some_iff.mp h
  rw [Bound.tree]
  rcases hcontent : bound.content with f | a | s
  · obtain rfl := Bound.eq_integerTooLong_of_content hcontent
    exact failsOnly_error.mpr (.inr (.inr rfl))
  · exact failsOnly_ok _
  · simp only
    split
    · split
      · exact failsOnly_ok _
      · exact failsOnly_error.mpr (.inr (.inl rfl))
    · exact fun f hf => .inl (Formula.failsOnly_readFormula _ f hf)

theorem Bindings.Explains.of_cyclic {x : String} (h : b.Explains t (.undefined (.cyclic x))) :
    b.Reaches t x ∧ b.IsCyclic x := by
  cases h with
  | operator h => exact h.elim
  | cyclic hx h => exact ⟨hx, h⟩
  | bound hx h =>
    rcases failsOnly_error.mp (failsOnly_of_standsFor? h) with h | h | h
    · exact h.elim
    · cases h
    · cases h

theorem Bindings.Explains.of_tooDeep (h : b.Explains t .tooDeep) :
    ∃ x, b.Reaches t x ∧ b.standsFor? x = some (.error .tooDeep) := by
  cases h with
  | operator h => exact h.elim
  | bound hx h => exact ⟨_, hx, h⟩

/-- The names being resolved lead to all variables of the tree, so that one of them that is met
again is defined in terms of itself. -/
theorem failsOnly_unlimitedValue [Binary64.Library] (hresolving : b.LeadTo resolving t) :
    FailsOnly (b.Explains t) (t.unlimitedValue unit b resolving) := by
  fun_induction Tree.unlimitedValue unit b resolving t with
  | case1 resolving a => exact failsOnly_ok a
  | case2 resolving x h =>
    rw [freeValue]
    split
    · exact failsOnly_ok _
    · exact failsOnly_error.mpr (.unbound Bindings.reaches_self h)
  | case3 resolving x r h hx =>
    have hcyclic := hresolving.isCyclic hx
    exact failsOnly_error.mpr (.cyclic Bindings.reaches_self hcyclic)
  | case4 resolving x hx f _ h =>
    exact failsOnly_error.mpr (.bound Bindings.reaches_self h)
  | case5 resolving x hx t _ h ih =>
    have ht := ih (hresolving.follow h)
    exact ht.explains fun y hy => Bindings.reaches_var.mpr (.inr ⟨t, h, hy⟩)
  | case6 resolving op a ih =>
    have ha := (ih hresolving).explains (u := .unary op a) fun x hx => Bindings.reaches_unary.mpr hx
    refine ha.bind fun value f hf => ?_
    exact .operator (op.failsOnly_apply unit value f hf)
  | case7 resolving op l r ihl ihr =>
    have hl := (ihl hresolving.left).explains (u := .binary op l r)
      fun x hx => Bindings.reaches_binary.mpr (.inl hx)
    have hr := (ihr hresolving.right).explains (u := .binary op l r)
      fun x hx => Bindings.reaches_binary.mpr (.inr hx)
    refine hl.bind fun left => hr.bind fun right f hf => ?_
    exact .operator (op.failsOnly_apply left right f hf)

/-- A tree that has a value reaches no circle: all its operands and bound texts have values. -/
theorem not_isCyclic_of_unlimitedValue [Binary64.Library] {v : Decimal}
    (h : t.unlimitedValue unit b resolving = .ok v) {x : String} (hx : b.Reaches t x) :
    ¬b.IsCyclic x := by
  fun_induction Tree.unlimitedValue unit b resolving t generalizing v with
  | case1 resolving a => exact absurd hx (Bindings.not_reaches_number a x)
  | case2 resolving y hy =>
    rcases Bindings.reaches_var.mp hx with rfl | ⟨t, ht, -⟩
    · intro hcyclic
      obtain ⟨t, ht, -⟩ := Bindings.isCyclic_iff.mp hcyclic
      rw [hy] at ht
      cases ht
    · rw [hy] at ht
      cases ht
  | case3 => cases h
  | case4 => cases h
  | case5 resolving y hy t _ ht ih =>
    have hbound : ∀ z, b.standsFor? y = some (.ok z) → z = t := by
      intro z hz
      exact Except.ok.inj (Option.some.inj (hz.symm.trans ht))
    -- a circle through `y` itself passes through its tree, which has a value
    rcases Bindings.reaches_var.mp hx with rfl | ⟨u, hu, hx⟩
    · intro hcyclic
      obtain ⟨u, hu, hreach⟩ := Bindings.isCyclic_iff.mp hcyclic
      obtain rfl := hbound u hu
      exact ih h hreach hcyclic
    · obtain rfl := hbound u hu
      exact ih h hx
  | case6 resolving op a ih =>
    obtain ⟨value, hvalue, -⟩ := bind_eq_ok_iff.mp h
    exact ih hvalue hx
  | case7 resolving op l r ihl ihr =>
    obtain ⟨left, hleft, hrest⟩ := bind_eq_ok_iff.mp h
    obtain ⟨right, hright, -⟩ := bind_eq_ok_iff.mp hrest
    rcases Bindings.reaches_binary.mp hx with hx | hx
    · exact ihl hleft hx
    · exact ihr hright hx

end

/-! ### Formulas -/

namespace Formula
variable {unit : AngleUnit} {bindings : Bindings} {s : List Char} {t : Tree} {x : String}

theorem exists_error_of_isCyclic [Binary64.Library] (ht : readFormula s = .ok t)
    (hx : bindings.normalized.Reaches t x) (hcyclic : bindings.normalized.IsCyclic x) :
    ∃ f, evaluate unit bindings s = .error f := by
  rcases stopsOrIs_evaluate unit bindings ht with hdeep | hvalue
  · exact ⟨.tooDeep, hdeep⟩
  rw [hvalue]
  cases hv : t.unlimitedValue unit bindings.normalized [] with
  | error f => exact ⟨f, rfl⟩
  | ok v => exact absurd hcyclic (not_isCyclic_of_unlimitedValue hv hx)

theorem exists_of_evaluate_cyclic [Binary64.Library]
    (h : evaluate unit bindings s = .error (.undefined (.cyclic x))) :
    ∃ t, readFormula s = .ok t ∧ bindings.normalized.Reaches t x ∧
      bindings.normalized.IsCyclic x := by
  cases ht : readFormula s with
  | error f =>
    rw [evaluate_of_read_error ht] at h
    have hf := failsOnly_readFormula s f ht
    rw [Except.error.inj h] at hf
    exact hf.elim
  | ok t =>
    refine ⟨t, rfl, ?_⟩
    rcases stopsOrIs_evaluate unit bindings ht with hdeep | hvalue
    · rw [hdeep] at h
      cases h
    · exact (failsOnly_unlimitedValue (.nil t) _ (hvalue.symm.trans h)).of_cyclic

/-- However many levels there are, from some number of levels on the outcome is the same. -/
theorem exists_levels [Binary64.Library] (unit : AngleUnit) (bindings : Bindings)
    (ht : readFormula s = .ok t) :
    ∃ levels, ∀ more, levels ≤ more →
      let whole := t.valueLevels readFormula unit bindings.normalized more []
      whole = t.valueLevels readFormula unit bindings.normalized levels [] ∧
      (whole = .error .tooDeep →
        ∃ x, bindings.normalized.Reaches t x ∧
          bindings.normalized.standsFor? x = some (.error .tooDeep)) ∧
      (evaluate unit bindings s = .error .tooDeep ∨ evaluate unit bindings s = whole) := by
  obtain ⟨levels, hlevels⟩ := Tree.exists_levels unit bindings.normalized t
  refine ⟨levels, fun more hmore => ?_⟩
  rw [hlevels more hmore, hlevels levels le_rfl]
  refine ⟨rfl, ?_, stopsOrIs_evaluate unit bindings ht⟩
  exact fun hdeep => (failsOnly_unlimitedValue (.nil t) _ hdeep).of_tooDeep

end Formula

/-! ### Evaluators -/

namespace Evaluator

/-- A formula that reaches a circle of names has no value. A name that is said to be defined in
terms of itself is reached, and it leads to itself again. And references are not followed forever:
with more and more levels the outcome is always the same from some number of levels on, and too deep
only if one of the texts is too deep to be read. -/
theorem run_evaluate_cyclic [Binary64.Library] (unit : AngleUnit) (requests : List Request)
    (bindings : Bindings) (s : List Char) :
    let e := after requests (new unit)
    let b := bindings.normalized
    let outcome := ((evaluate bindings s).run e).1
    (∀ t x, Formula.readFormula s = .ok t → b.Reaches t x → b.IsCyclic x →
      ∃ f, outcome = .error f) ∧
    (∀ x, outcome = .error (.undefined (.cyclic x)) →
      ∃ t, Formula.readFormula s = .ok t ∧ b.Reaches t x ∧ b.IsCyclic x) ∧
    ∀ t, Formula.readFormula s = .ok t →
      ∃ levels, ∀ more, levels ≤ more →
        let whole := t.valueLevels Formula.readFormula e.unit b more []
        whole = t.valueLevels Formula.readFormula e.unit b levels [] ∧
        (whole = .error .tooDeep →
          ∃ x, b.Reaches t x ∧ b.standsFor? x = some (.error .tooDeep)) ∧
        (outcome = .error .tooDeep ∨ outcome = whole) := by
  intro e b outcome
  have houtcome : outcome = Formula.evaluate e.unit bindings s :=
    fst_run_evaluate_after unit requests bindings s
  rw [houtcome]
  refine ⟨?_, ?_, ?_⟩
  · exact fun t x ht hx hcyclic => Formula.exists_error_of_isCyclic ht hx hcyclic
  · exact fun x hx => Formula.exists_of_evaluate_cyclic hx
  · exact fun t ht => Formula.exists_levels e.unit bindings ht

theorem run_evaluate_cyclic_two_names :
    let bindings : Bindings := [("X", .text ['y', '+', '1']), ("y", .text ['2', 'x'])]
    let b := bindings.normalized
    let outcome := ((evaluate bindings ['3', 'x']).run (after [] (new .rad))).1
    let t : Tree := .binary .times (.number (.ofNat 3)) (.var "x")
    Formula.readFormula ['3', 'x'] = .ok t ∧ b.Reaches t "y" ∧ b.IsCyclic "y" ∧
      (∃ f, outcome = .error f) ∧ outcome = .error (.undefined (.cyclic "x")) ∧
      b.IsCyclic "x" := by
  intro bindings b outcome t
  have ht : Formula.readFormula ['3', 'x'] = .ok t := by decide +kernel
  have hx : b.standsFor? "x" = some (.ok (.binary .plus (.var "y") (.number .one))) := by
    decide +kernel
  have hy : b.standsFor? "y" = some (.ok (.binary .times (.number .two) (.var "x"))) := by
    decide +kernel
  have hxy : b.RefersTo "x" "y" := ⟨_, hx, by decide⟩
  have hyx : b.RefersTo "y" "x" := ⟨_, hy, by decide⟩
  have hreach : b.Reaches t "y" := ⟨"x", by decide, .single hxy⟩
  have hcyclic : b.IsCyclic "y" := .tail (.single hyx) hxy
  have houtcome : outcome = .error (.undefined (.cyclic "x")) := by decide +kernel
  obtain ⟨hfails, hfound, -⟩ := run_evaluate_cyclic .rad [] bindings ['3', 'x']
  obtain ⟨-, -, -, hx'⟩ := hfound "x" houtcome
  exact ⟨ht, hreach, hcyclic, hfails t "y" ht hreach hcyclic, houtcome, hx'⟩

end Evaluator

end Reckon
