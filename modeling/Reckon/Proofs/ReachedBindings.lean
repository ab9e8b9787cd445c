import Reckon.Proofs.Memory
import Reckon.Proofs.Unlimited

/-!
# Bindings that matter

A value depends only on what is bound to the variables that its tree reaches, in the tree itself or
through bound texts. Whatever else is bound, or is not, may be malformed or defined in terms of
itself: it is never looked at (`valueLevels_congr`). So tables that agree on those variables give a
formula the same value, or let it fail in the same way (`run_evaluate_congr`).
-/

namespace Reckon

/-! ### Tables that agree -/

/-- Every variable that the tree reaches is bound to the same in both tables, or to nothing. The
names of constants may be bound to anything. -/
def Bindings.AgreeAt (b b' : Bindings) (t : Tree) : Prop :=
  ∀ x, b.Reaches t x → namedConstant? x = none → b'.lookup? x = b.lookup? x

namespace Bindings.AgreeAt
variable {b b' : Bindings} {x : String} {t l r : Tree} {op : Binary}

theorem follow (h : b.AgreeAt b' (.var x)) (ht : b.standsFor? x = some (.ok t)) : b.AgreeAt b' t :=
  fun y hy => h y (reaches_var.mpr (.inr ⟨t, ht, hy⟩))

theorem operand {op : Unary} (h : b.AgreeAt b' (.unary op t)) : b.AgreeAt b' t :=
  fun y hy => h y (reaches_unary.mpr hy)

theorem operands (h : b.AgreeAt b' (.binary op l r)) : b.AgreeAt b' l ∧ b.AgreeAt b' r :=
  ⟨fun y hy => h y (reaches_binary.mpr (.inl hy)), fun y hy => h y (reaches_binary.mpr (.inr hy))⟩

end Bindings.AgreeAt

/-! ### Values -/

namespace Tree
variable {unit : AngleUnit} {b b' : Bindings} {resolving : List String} {x : String} {t : Tree}

theorem resolve_congr {value value' : Tree → Except Failure Decimal}
    (hx : namedConstant? x = none → b'.lookup? x = b.lookup? x)
    (hvalue : ∀ t, b.standsFor? x = some (.ok t) → value' t = value t) :
    resolve b' resolving (fun s => Formula.readFormula s >>= value') x =
      resolve b resolving (fun s => Formula.readFormula s >>= value) x := by
  rw [resolve, resolve]
  cases hc : namedConstant? x with
  | some a => rfl
  | none =>
    rw [hx hc]
    cases hlookup : b.lookup? x with
    | none => rfl
    | some bound =>
      simp only
      rcases hcontent : bound.content with f | a | s
      · rfl
      · rfl
      · simp only
        cases hs : Formula.isLiteral (Text.trim s) with
        | true => rfl
        | false =>
          cases ht : Formula.readFormula (Text.trim s) with
          | error f => rfl
          | ok t =>
            have hstands : b.standsFor? x = some (.ok t) :=
              Bindings.standsFor?_eq_some_iff.mpr
                ⟨hc, _, hlookup, by simp [Bound.tree, hcontent, hs, ht]⟩
            change (if _ then _ else value' t) = (if _ then _ else value t)
            rw [hvalue t hstands]

/-- Chains whose operands have the same values have the same value. -/
theorem chainValue_congr [Binary64.Library] {P : Tree → Prop}
    {below below' : Tree → Except Failure Decimal}
    (hoperands : ∀ op l r, P (binary op l r) → P l ∧ P r) (hbelow : ∀ t, P t → below' t = below t)
    (ht : P t) : chainValue below' t = chainValue below t := by
  induction t with
  | number | var | unary => exact hbelow _ ht
  | binary op l r ihl _ =>
    obtain ⟨hl, hr⟩ := hoperands op l r ht
    rw [chainValue_binary, chainValue_binary, ihl hl, hbelow r hr]

/-- A value depends only on what is bound to the variables that the tree reaches. -/
theorem valueLevels_congr [Binary64.Library] (levels : Nat) (h : b.AgreeAt b' t) :
    valueLevels Formula.readFormula unit b' levels resolving t =
      valueLevels Formula.readFormula unit b levels resolving t := by
  induction levels generalizing resolving t with
  | zero => rfl
  | succ levels ih =>
    cases t with
    | number a => rfl
    | var x =>
      rw [valueLevels_var, valueLevels_var]
      exact resolve_congr (h x Bindings.reaches_self) fun t ht => ih (h.follow ht)
    | unary op a => rw [valueLevels_unary, valueLevels_unary, ih h.operand]
    | binary op l r =>
      rw [valueLevels_binary, valueLevels_binary]
      exact chainValue_congr (fun _ _ _ => Bindings.AgreeAt.operands) (fun t ht => ih ht) h

end Tree

/-! ### Formulas -/

/-- A text that has no tree has no value either, whatever is bound. -/
theorem Formula.evaluate_congr [Binary64.Library] (unit : AngleUnit) {bindings bindings' : Bindings}
    {s : List Char}
    (h : ∀ t, readFormula s = .ok t → bindings.normalized.AgreeAt bindings'.normalized t) :
    evaluate unit bindings' s = evaluate unit bindings s := by
  cases ht : readFormula s with
  | error f => rw [evaluate_of_read_error ht, evaluate_of_read_error ht]
  | ok t =>
    rw [evaluate_of_read ht, evaluate_of_read ht]
    exact Tree.valueLevels_congr _ (h t ht)

namespace Evaluator

/-- A formula comes to the same with two tables of bindings if, once their names are normalized,
they agree on every variable that the tree of the formula reaches. What the evaluators were asked
for before does not matter, as long as they have the same unit. -/
theorem run_evaluate_congr [Binary64.Library] (unit unit' : AngleUnit)
    (requests requests' : List Request) (bindings bindings' : Bindings) (s : List Char)
    (hunit : (after requests (new unit)).unit = (after requests' (new unit')).unit)
    (h : ∀ t x, Formula.readFormula s = .ok t → bindings.normalized.Reaches t x →
      namedConstant? x = none → bindings'.normalized.lookup? x = bindings.normalized.lookup? x) :
    ((evaluate bindings' s).run (after requests' (new unit'))).1 =
      ((evaluate bindings s).run (after requests (new unit))).1 := by
  have heq := fst_run_evaluate_after unit requests bindings s
  have heq' := fst_run_evaluate_after unit' requests' bindings' s
  rw [heq, heq', ← hunit]
  exact Formula.evaluate_congr _ fun t ht x => h t x ht

/-- Names that the formula does not reach are malformed, defined in terms of themselves or left out,
and the constant in it is bound to nonsense. -/
theorem run_evaluate_congr_malformed :
    let bindings : Bindings :=
      [("X", .text [' ', 'y', '+', '1']), ("y", .number .two), ("k", .text ['2', 'k']),
        ("pi", .text ['(', '('])]
    let bindings' : Bindings :=
      [("y", .number .two), ("x", .text [' ', 'y', '+', '1']), ("z", .text ['3', '.', '.'])]
    let s := ['x', '*', 'p', 'i']
    let e := after [] (new .deg)
    let e' := after [.selectUnit "grad", .evaluate bindings s, .selectUnit "deg"] (new .rad)
    Formula.readFormula s = .ok (.binary .times (.var "x") (.var "pi")) ∧
      ((evaluate bindings' s).run e').1 = ((evaluate bindings s).run e).1 := by
  intro bindings bindings' s e e'
  have ht : Formula.readFormula s = .ok (.binary .times (.var "x") (.var "pi")) := by
    decide +kernel
  have htext : (Bound.text [' ', 'y', '+', '1']).tree =
      .ok (.binary .plus (.var "y") (.number .one)) := by
    decide +kernel
  have hx : bindings.normalized.standsFor? "x" =
      some (.ok (.binary .plus (.var "y") (.number .one))) :=
    Bindings.standsFor?_eq_some_iff.mpr ⟨rfl, _, rfl, htext⟩
  have hy : bindings.normalized.standsFor? "y" = some (.ok (.number .two)) :=
    Bindings.standsFor?_eq_some_iff.mpr ⟨rfl, _, rfl, rfl⟩
  have hpi : bindings.normalized.standsFor? "pi" = none :=
    Bindings.standsFor?_eq_none_iff.mpr (.inl rfl)
  refine ⟨ht, run_evaluate_congr .deg .rad [] _ bindings bindings' s (by decide +kernel) ?_⟩
  intro t z ht' hz hconstant
  obtain rfl := Except.ok.inj (ht.symm.trans ht')
  have hreached : (z = "x" ∨ z = "y") ∨ z = "pi" := by
    simpa [Bindings.reaches_binary, Bindings.reaches_var, hx, hy, hpi,
      Bindings.not_reaches_number] using hz
  rcases hreached with (rfl | rfl) | rfl
  · rfl
  · rfl
  · cases hconstant

end Evaluator

end Reckon
