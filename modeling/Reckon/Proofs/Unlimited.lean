import Mathlib.Data.Finset.Card
import Mathlib.Data.Finset.Dedup
import Mathlib.Order.Filter.AtTopBot.Basic
import Reckon.Proofs.References
import Reckon.Proofs.Results

/-!
# Values without a limit on levels

`unlimitedValue` evaluates a tree by plain recursion, however deep it is. It ends: a bound name is
not followed a second time while it is being resolved, so there are fewer and fewer names to follow.
An evaluation that stops at a number of levels comes to the same, unless it stops there
(`stopsOrIs_valueLevels`), and with enough levels it does not (`exists_levels`).
-/

namespace Reckon

open Filter (atTop eventually_atTop map_add_atTop_eq_nat)

/-- How many bound names are not being resolved yet. -/
def Bindings.unresolved (b : Bindings) (resolving : List String) : Nat :=
  ((b.map (·.1)).toFinset \ resolving.toFinset).card

theorem Bindings.unresolved_cons_lt {b : Bindings} {resolving : List String} {x : String}
    {r : Except Failure Tree} (h : b.standsFor? x = some r) (hx : x ∉ resolving) :
    b.unresolved (x :: resolving) < b.unresolved resolving := by
  rw [unresolved, unresolved, List.toFinset_cons, Finset.sdiff_insert]
  refine Finset.card_erase_lt_of_mem ?_
  rw [Finset.mem_sdiff, List.mem_toFinset, List.mem_toFinset]
  exact ⟨mem_names_of_standsFor? h, hx⟩

theorem eventually_of_succ {P : Nat → Prop} (h : ∀ᶠ n in atTop, P (n + 1)) :
    ∀ᶠ n in atTop, P n := by
  rw [← map_add_atTop_eq_nat 1]
  exact h

namespace Tree
variable [Binary64.Library]

/-- The value of a tree of any number of levels. -/
def unlimitedValue (unit : AngleUnit) (b : Bindings) (resolving : List String) :
    Tree → Except Failure Decimal
  | number a => .ok a
  | var x =>
    match _ : b.standsFor? x with
    | none => freeValue x
    | some r =>
      if _ : x ∈ resolving then .error (.undefined (.cyclic x))
      else
        match r with
        | .error f => .error f
        | .ok t => unlimitedValue unit b (x :: resolving) t
  | unary op a => do
    let value ← unlimitedValue unit b resolving a
    op.apply unit value
  | binary op l r => do
    let left ← unlimitedValue unit b resolving l
    let right ← unlimitedValue unit b resolving r
    op.apply left right
termination_by t => (b.unresolved resolving, sizeOf t)
decreasing_by
  -- the tree that a name stands for may be larger, but there is one name less to follow
  · exact Prod.Lex.left _ _ (Bindings.unresolved_cons_lt ‹_› ‹_›)
  all_goals
    refine Prod.Lex.right _ ?_
    simp only [unary.sizeOf_spec, binary.sizeOf_spec]
    omega

section
variable {unit : AngleUnit} {b : Bindings} {resolving : List String} {x : String}

theorem unlimitedValue_number (a : Decimal) :
    unlimitedValue unit b resolving (number a) = .ok a := by
  rw [unlimitedValue]

theorem unlimitedValue_of_standsFor?_eq_none (h : b.standsFor? x = none) :
    unlimitedValue unit b resolving (var x) = freeValue x := by
  rw [unlimitedValue]
  split
  · rfl
  · rename_i h'
    rw [h] at h'
    cases h'

theorem unlimitedValue_of_mem {r : Except Failure Tree} (h : b.standsFor? x = some r)
    (hx : x ∈ resolving) :
    unlimitedValue unit b resolving (var x) = .error (.undefined (.cyclic x)) := by
  rw [unlimitedValue]
  split
  · rename_i h'
    rw [h] at h'
    cases h'
  · exact dif_pos hx

theorem unlimitedValue_of_not_mem {r : Except Failure Tree} (h : b.standsFor? x = some r)
    (hx : x ∉ resolving) :
    unlimitedValue unit b resolving (var x) =
      r >>= unlimitedValue unit b (x :: resolving) := by
  rw [unlimitedValue]
  split
  · rename_i h'
    rw [h] at h'
    cases h'
  · rename_i h'
    obtain rfl := Option.some.inj (h.symm.trans h')
    rw [dif_neg hx]
    cases r <;> rfl

/-! ### With a limit -/

/-- The value of a chain whose operands on the right have the values that `below` says. -/
def chainValue (below : Tree → Except Failure Decimal) (t : Tree) :
    Except Failure Decimal :=
  t.foldChain below fun op left right => MonadExcept.ofExcept (op.apply left right)

theorem chainValue_var (below : Tree → Except Failure Decimal) (x : String) :
    chainValue below (var x) = below (var x) :=
  rfl

theorem chainValue_binary (below : Tree → Except Failure Decimal) (op : Binary)
    (l r : Tree) :
    chainValue below (binary op l r) =
      chainValue below l >>= fun left => below r >>= fun right => op.apply left right := by
  simp only [chainValue, foldChain_binary, ofExcept_eq]

theorem valueLevels_var (levels : Nat) (x : String) :
    valueLevels Formula.readFormula unit b (levels + 1) resolving (var x) =
      resolve b resolving
        (fun s => Formula.readFormula s >>=
          valueLevels Formula.readFormula unit b levels (x :: resolving)) x :=
  rfl

theorem valueLevels_unary (levels : Nat) (op : Unary) (a : Tree) :
    valueLevels Formula.readFormula unit b (levels + 1) resolving (unary op a) =
      valueLevels Formula.readFormula unit b levels resolving a >>= op.apply unit := by
  change (valueLevels Formula.readFormula unit b levels resolving a >>= fun value =>
    MonadExcept.ofExcept (op.apply unit value)) = _
  simp only [ofExcept_eq]

theorem valueLevels_binary (levels : Nat) (op : Binary) (l r : Tree) :
    valueLevels Formula.readFormula unit b (levels + 1) resolving (binary op l r) =
      chainValue (valueLevels Formula.readFormula unit b levels resolving) (binary op l r) :=
  rfl

/-- A chain comes to the value of its tree if all its operands do. -/
theorem stopsOrIs_chainValue {below : Tree → Except Failure Decimal}
    (h : ∀ t, StopsOrIs (below t) (unlimitedValue unit b resolving t)) (t : Tree) :
    StopsOrIs (chainValue below t) (unlimitedValue unit b resolving t) := by
  induction t with
  | number | var | unary => exact h _
  | binary op l r ihl _ =>
    rw [unlimitedValue, chainValue_binary]
    exact ihl.bind fun left => (h r).bind fun right => .inr rfl

theorem stopsOrIs_resolve {value : Tree → Except Failure Decimal}
    (h : ∀ t, StopsOrIs (value t) (unlimitedValue unit b (x :: resolving) t)) :
    StopsOrIs (resolve b resolving (fun s => Formula.readFormula s >>= value) x)
      (unlimitedValue unit b resolving (var x)) := by
  cases hbound : b.standsFor? x with
  | none =>
    rw [unlimitedValue_of_standsFor?_eq_none hbound]
    exact .inr (resolve_of_standsFor?_eq_none _ hbound)
  | some r =>
    by_cases hx : x ∈ resolving
    · rw [unlimitedValue_of_mem hbound hx]
      exact .inr (resolve_of_mem _ hbound hx)
    · rw [unlimitedValue_of_not_mem hbound hx]
      -- a number that a name is bound to takes no level, so `value` is not asked for it
      rcases resolve_of_not_mem hbound hx with hresolve | ⟨a, rfl, hresolve⟩
      · rw [hresolve]
        exact StopsOrIs.bind (.inr rfl) h
      · rw [hresolve]
        exact .inr (unlimitedValue_number a).symm

/-- An evaluation either stops at the limit or does not notice it. -/
theorem stopsOrIs_valueLevels (levels : Nat) (t : Tree) :
    StopsOrIs (valueLevels Formula.readFormula unit b levels resolving t)
      (unlimitedValue unit b resolving t) := by
  induction levels generalizing resolving t with
  | zero => exact .inl rfl
  | succ levels ih =>
    cases t with
    | number a => exact .inr (unlimitedValue_number a).symm
    | var x =>
      rw [valueLevels_var]
      exact stopsOrIs_resolve fun t => ih t
    | unary op a =>
      rw [valueLevels_unary, unlimitedValue]
      exact (ih a).bind fun value => .inr rfl
    | binary op l r =>
      rw [valueLevels_binary]
      exact stopsOrIs_chainValue (fun t => ih t) _

/-! ### With enough levels -/

/-- A binary operator takes one level more than its chain, anything else is a chain of its own. -/
theorem eventually_valueLevels_of_chain {t : Tree} {r : Except Failure Decimal}
    (h : ∀ᶠ levels in atTop,
      chainValue (valueLevels Formula.readFormula unit b levels resolving) t = r) :
    ∀ᶠ levels in atTop, valueLevels Formula.readFormula unit b levels resolving t = r := by
  cases t with
  | number | var | unary => exact h
  | binary op l r => exact eventually_of_succ h

/-- The statement is about chains because the left operand of a chain takes no level of its own. -/
theorem eventually_chainValue (unit : AngleUnit) (b : Bindings) (resolving : List String)
    (t : Tree) :
    ∀ᶠ levels in atTop,
      chainValue (valueLevels Formula.readFormula unit b levels resolving) t =
        unlimitedValue unit b resolving t := by
  fun_induction unlimitedValue unit b resolving t with
  | case1 resolving a => exact eventually_of_succ (.of_forall fun levels => rfl)
  | case2 resolving x h =>
    refine eventually_of_succ (.of_forall fun levels => ?_)
    rw [chainValue_var, valueLevels_var]
    exact resolve_of_standsFor?_eq_none _ h
  | case3 resolving x r h hx =>
    refine eventually_of_succ (.of_forall fun levels => ?_)
    rw [chainValue_var, valueLevels_var]
    exact resolve_of_mem _ h hx
  | case4 resolving x hx f _ h =>
    refine eventually_of_succ (.of_forall fun levels => ?_)
    rw [chainValue_var, valueLevels_var]
    rcases resolve_of_not_mem h hx with hresolve | ⟨a, ⟨⟩, -⟩
    rw [hresolve]
    rfl
  | case5 resolving x hx t _ h ih =>
    refine eventually_of_succ ((eventually_valueLevels_of_chain ih).mono fun levels ht => ?_)
    rw [chainValue_var, valueLevels_var]
    rcases resolve_of_not_mem h hx with hresolve | ⟨a, heq, hresolve⟩
    · rw [hresolve]
      exact ht
    · rw [hresolve, Except.ok.inj heq, unlimitedValue_number]
  | case6 resolving op a ih =>
    refine eventually_of_succ ((eventually_valueLevels_of_chain ih).mono fun levels ha => ?_)
    rw [← ha]
    exact valueLevels_unary levels op a
  | case7 resolving op l r ihl ihr =>
    refine (ihl.and (eventually_valueLevels_of_chain ihr)).mono ?_
    rintro levels ⟨hl, hr⟩
    rw [chainValue_binary, hl, hr]

/-- With enough levels an evaluation does not stop early. -/
theorem exists_levels (unit : AngleUnit) (b : Bindings) (t : Tree) :
    ∃ levels, ∀ more, levels ≤ more →
      valueLevels Formula.readFormula unit b more [] t = unlimitedValue unit b [] t :=
  eventually_atTop.mp (eventually_valueLevels_of_chain (eventually_chainValue unit b [] t))

end

end Tree

namespace Formula
variable [Binary64.Library] {unit : AngleUnit} {bindings : Bindings} {s : List Char} {t : Tree}

theorem evaluate_of_read (h : readFormula s = .ok t) :
    evaluate unit bindings s = t.value readFormula unit bindings.normalized := by
  rw [evaluate, evaluateWith, h]
  rfl

theorem evaluate_of_read_error {f : Failure} (h : readFormula s = .error f) :
    evaluate unit bindings s = .error f := by
  rw [evaluate, evaluateWith, h]
  rfl

theorem stopsOrIs_evaluate (unit : AngleUnit) (bindings : Bindings) (h : readFormula s = .ok t) :
    StopsOrIs (evaluate unit bindings s) (t.unlimitedValue unit bindings.normalized []) := by
  rw [evaluate_of_read h]
  exact Tree.stopsOrIs_valueLevels _ t

end Formula

end Reckon
