import Reckon.Proofs.ExactArithmetic
import Reckon.Proofs.Memory
import Reckon.Simplify.Pass
import Reckon.Tree.Derivative

/-!
# Chains by direct recursion

Values, simplifying passes and derivatives go along the left operands in a loop, so that a long
chain is not deep. Here each of them is also written as a direct recursion, in which the left
operand is one level below the tree like any other operand. The two come to the same, or fail first
in the same way, unless one of them is too deep (`Tree.loops_eq_recursion`): what a loop does with
the left operand of a chain is what it does with that operand as a tree, on the level of the
operands or on the one above.
-/

namespace Reckon

/-! ### The loop -/

namespace Tree
variable {m : Type → Type} [Monad m] {α : Type}

/-- Walks down the left operands. The operators that it passes are put on a list with their right
operands, so that the innermost one comes first in the end. -/
def descend (follows : Binary → Bool) : Tree → List (Binary × Tree) → Tree × List (Binary × Tree)
  | binary op l r, passed =>
    if follows op then descend follows l ((op, r) :: passed) else (binary op l r, passed)
  | t, passed => (t, passed)

/-- One round on the way back: the right operand, and what it is joined to. -/
def joinNext (below : Tree → m α) (join : Binary → α → α → m α) (a : α) (next : Binary × Tree) :
    m α := do
  let b ← below next.2
  join next.1 a b

/-- Down the left operands and back, in two loops. -/
def loopSpine (follows : Binary → Bool) (below : Tree → m α) (join : Binary → α → α → m α)
    (t : Tree) : m α := do
  let (innermost, passed) := t.descend follows []
  passed.foldlM (joinNext below join) (← below innermost)

theorem foldSpine_foldlM [LawfulMonad m] (follows : Binary → Bool) (below : Tree → m α)
    (join : Binary → α → α → m α) (t : Tree) (passed : List (Binary × Tree)) :
    (t.foldSpine follows below join >>= fun a => passed.foldlM (joinNext below join) a) =
      below (t.descend follows passed).1 >>= fun a =>
        (t.descend follows passed).2.foldlM (joinNext below join) a := by
  induction t generalizing passed with
  | number | var | unary => rfl
  | binary op l r ihl _ =>
    rw [foldSpine, descend]
    split
    · rw [← ihl, bind_assoc]
      simp only [List.foldlM_cons, joinNext, bind_assoc]
    · rfl

theorem foldSpine_eq_loopSpine [LawfulMonad m] (follows : Binary → Bool) (below : Tree → m α)
    (join : Binary → α → α → m α) (t : Tree) :
    t.foldSpine follows below join = t.loopSpine follows below join := by
  have h := foldSpine_foldlM follows below join t []
  simp only [List.foldlM_nil, bind_pure] at h
  exact h

end Tree

instance : LawfulMonad Simplify.Plan :=
  LawfulMonad.mk' _
    (fun p => by
      induction p with
      | done | fail => rfl
      | ask q next ih => exact congrArg (Simplify.Plan.ask q) (funext ih))
    (fun _ _ => rfl)
    (fun p f g => by
      induction p with
      | done | fail => rfl
      | ask q next ih => exact congrArg (Simplify.Plan.ask q) (funext ih))

/-! ### Direct recursion -/

/-- The value of a tree of at most `levels` levels, where every operand is one level below its
operator. -/
def Tree.directValueLevels {m : Type → Type} [Monad m] [MonadExceptOf Failure m] [Binary64.Library]
    (read : List Char → m Tree) (unit : AngleUnit) (bindings : Bindings) :
    (levels : Nat) → (resolving : List String) → Tree → m Decimal
  | 0, _, _ => throw .tooDeep
  | levels + 1, resolving, t =>
    match t with
    | number a => pure a
    | var x =>
      let follow (s : List Char) : m Decimal := do
        let tree ← read s
        directValueLevels read unit bindings levels (x :: resolving) tree
      resolve bindings resolving follow x
    | unary op a => do
      let value ← directValueLevels read unit bindings levels resolving a
      MonadExcept.ofExcept (op.apply unit value)
    | binary op l r => do
      let left ← directValueLevels read unit bindings levels resolving l
      let right ← directValueLevels read unit bindings levels resolving r
      MonadExcept.ofExcept (op.apply left right)

open Simplify (Plan)

/-- One pass over a tree of at most `levels` levels: every node is built from its simplified
operands. -/
def Simplify.directPassLevels : (levels : Nat) → Tree → Plan Tree
  | 0, _ => .fail .tooDeep
  | levels + 1, t =>
    match t with
    | .number _ | .var _ => .done t
    | .unary op a => do unaryRule op (← directPassLevels levels a)
    | .binary op l r => do
      let left ← directPassLevels levels l
      let right ← directPassLevels levels r
      Plan.combine op left right

namespace Tree

/-- The rules for derivatives, where `derivative` takes those of the operands and `sum` is the rule
for sums and differences. -/
def derivativeStep (x : String) (sum : Binary → Tree → Tree → Plan Tree)
    (derivative : Tree → Plan Tree) : Tree → Plan Tree
  | number _ => .done zero
  | var y => .done (if Text.lowercase y.toList = Text.lowercase x.toList then one else zero)
  | unary op u => op.chainRule.apply op u derivative
  | binary op a b =>
    match op with
    | .plus | .minus => sum op a b
    | .times => do
      let left ← Plan.combine .times a (← derivative b)
      Plan.combine .plus left (← Plan.combine .times (← derivative a) b)
    | .div => do
      let left ← Plan.combine .times b (← derivative a)
      let right ← Plan.combine .times a (← derivative b)
      Plan.combine .div (← Plan.combine .minus left right) (← Simplify.square b)
    | .power => derivativeOfPower derivative a b
    | .log => do derivative (← Plan.combine .div (← Simplify.ln a) (← Simplify.ln b))
    | .modulo => do
      let da ← derivative a
      let db ← derivative b
      Plan.combine .minus da
        (← Plan.combine .times db (unary .floor (← Plan.combine .div a b)))
    | op => .fail (.malformed (.notDifferentiable op.name))

/-- The derivative of a sum or a difference from those of both operands. -/
def directSum (derivative : Tree → Plan Tree) (op : Binary) (a b : Tree) : Plan Tree := do
  let da ← derivative a
  let db ← derivative b
  Plan.combine op da db

/-- The derivative of a tree of at most `levels` levels, where every operand is one level below its
operator. -/
def directDerivativeLevels (x : String) : (levels : Nat) → Tree → Plan Tree
  | 0, _ => .fail .tooDeep
  | levels + 1, t =>
    derivativeStep x (directSum (directDerivativeLevels x levels)) (directDerivativeLevels x levels)
      t

theorem derivativeLevels_succ (x : String) (levels : Nat) (t : Tree) :
    derivativeLevels x (levels + 1) t =
      derivativeStep x
        (fun op a b =>
          foldSpine Binary.isSign (derivativeLevels x levels) Plan.combine (binary op a b))
        (derivativeLevels x levels) t := by
  cases t with
  | number | var | unary => rfl
  | binary op a b => cases op <;> rfl

/-! ### The left operand of a chain

A loop that goes on with the left operand does with it what it does with that operand as a tree,
which is on its own level if it is a chain again.
-/

section
variable {m : Type → Type} [Monad m] [MonadExceptOf Failure m] [Binary64.Library]

theorem exists_valueLevels_eq_foldChain (read : List Char → m Tree) (unit : AngleUnit)
    (bindings : Bindings) (levels : Nat) (resolving : List String) (t : Tree) :
    ∃ n, t.valueLevels read unit bindings n resolving =
      t.foldChain (valueLevels read unit bindings levels resolving)
        (fun op a b => MonadExcept.ofExcept (op.apply a b)) := by
  cases t with
  | number | var | unary => exact ⟨levels, rfl⟩
  | binary op l r => exact ⟨levels + 1, rfl⟩

end

theorem exists_passLevels_eq_foldChain (levels : Nat) (t : Tree) :
    ∃ n, Simplify.passLevels n t = t.foldChain (Simplify.passLevels levels) Plan.combine := by
  cases t with
  | number | var | unary => exact ⟨levels, rfl⟩
  | binary op l r => exact ⟨levels + 1, rfl⟩

theorem exists_derivativeLevels_eq_foldSpine (x : String) (levels : Nat) (t : Tree) :
    ∃ n, derivativeLevels x n t =
      t.foldSpine Binary.isSign (derivativeLevels x levels) Plan.combine := by
  cases t with
  | number | var | unary => exact ⟨levels, rfl⟩
  | binary op l r =>
    cases hop : op.isSign with
    | false => exact ⟨levels, by rw [foldSpine, hop, if_neg Bool.false_ne_true]⟩
    | true =>
      refine ⟨levels + 1, ?_⟩
      cases op with
      | plus | minus => rfl
      | _ => cases hop

end Tree

/-! ### Values -/

namespace Evaluator
variable {α β : Type} {x y : Call α}

/-- Whatever the evaluator is, both calls have the same result and leave the same evaluator, unless
something is too deep for one of them. -/
def AgreeUnlessDeep (x y : Call α) : Prop :=
  ∀ e, (x.run e).1 = .error .tooDeep ∨ (y.run e).1 = .error .tooDeep ∨ x.run e = y.run e

namespace AgreeUnlessDeep

theorem refl (x : Call α) : AgreeUnlessDeep x x :=
  fun _ => .inr (.inr rfl)

theorem bind {f g : α → Call β} (h : AgreeUnlessDeep x y)
    (hfg : ∀ a, AgreeUnlessDeep (f a) (g a)) : AgreeUnlessDeep (x >>= f) (y >>= g) := by
  intro e
  rw [run_bind, run_bind]
  rcases h e with hdeep | hdeep | heq
  · left
    rcases hx : x.run e with ⟨r, e'⟩
    rw [hx] at hdeep
    cases hdeep
    rfl
  · right; left
    rcases hy : y.run e with ⟨r, e'⟩
    rw [hy] at hdeep
    cases hdeep
    rfl
  · rw [heq]
    rcases y.run e with ⟨_ | a, e'⟩
    · exact .inr (.inr rfl)
    · exact hfg a e'

theorem isCarried : IsCarried (m := Call) (n := Call) fun _ => AgreeUnlessDeep where
  pure a := refl (pure a)
  throw f := refl (throw f)
  bind := bind

theorem valueLevels [Binary64.Library] (unit : AngleUnit) (bindings : Bindings)
    (levels levels' : Nat) (resolving : List String) (t : Tree) :
    AgreeUnlessDeep (t.valueLevels Evaluator.tree unit bindings levels resolving)
      (t.directValueLevels Evaluator.tree unit bindings levels' resolving) := by
  -- on the way down a chain only the direct recursion loses levels, so those of the loop are free
  induction levels' generalizing levels resolving t with
  | zero => exact fun _ => .inr (.inl rfl)
  | succ levels' ih =>
    cases levels with
    | zero => exact fun _ => .inl rfl
    | succ levels =>
      cases t with
      | number a => exact refl _
      | var x =>
        exact isCarried.resolve
          (fun s => (refl (Evaluator.tree s)).bind fun t => ih levels (x :: resolving) t) x
      | unary op a => exact (ih levels resolving a).bind fun _ => refl _
      | binary op l r =>
        obtain ⟨n, hleft⟩ := Tree.exists_valueLevels_eq_foldChain Evaluator.tree unit bindings
          levels resolving l
        have hl := ih n resolving l
        rw [hleft] at hl
        exact hl.bind fun a => (ih levels resolving r).bind fun b => refl _

end AgreeUnlessDeep

end Evaluator

/-! ### Simplifying passes and derivatives -/

namespace Simplify.Plan
variable {α β : Type} {p q : Plan α}

/-- Both plans come to the same, unless something is too deep for one of them. -/
def AgreeUnlessDeep (p q : Plan α) : Prop :=
  p.run .working = .error .tooDeep ∨ q.run .working = .error .tooDeep ∨
    p.run .working = q.run .working

namespace AgreeUnlessDeep

theorem refl (p : Plan α) : AgreeUnlessDeep p p :=
  .inr (.inr rfl)

theorem bind {f g : α → Plan β} (h : AgreeUnlessDeep p q)
    (hfg : ∀ a, AgreeUnlessDeep (f a) (g a)) : AgreeUnlessDeep (p >>= f) (q >>= g) := by
  unfold AgreeUnlessDeep Plan.run at h ⊢
  rw [bind_eq, bind_eq, follow_bind, follow_bind]
  rcases h with hdeep | hdeep | heq
  · rw [hdeep]; exact .inl rfl
  · rw [hdeep]; exact .inr (.inl rfl)
  · rw [heq]
    cases q.follow _ with
    | error f => exact .inr (.inr rfl)
    | ok a => exact hfg a

theorem passLevels (levels levels' : Nat) (t : Tree) :
    AgreeUnlessDeep (Simplify.passLevels levels t) (directPassLevels levels' t) := by
  induction levels' generalizing levels t with
  | zero => exact .inr (.inl rfl)
  | succ levels' ih =>
    cases levels with
    | zero => exact .inl rfl
    | succ levels =>
      cases t with
      | number | var => exact refl _
      | unary op a => exact (ih levels a).bind fun _ => refl _
      | binary op l r =>
        obtain ⟨n, hleft⟩ := Tree.exists_passLevels_eq_foldChain levels l
        have hl := ih n l
        rw [hleft] at hl
        exact hl.bind fun a => (ih levels r).bind fun b => refl _

section
variable {derivative derivative' : Tree → Plan Tree}
  (h : ∀ t, AgreeUnlessDeep (derivative t) (derivative' t))
include h

theorem chainRule (rule : ChainRule) (op : Unary) (u : Tree) :
    AgreeUnlessDeep (rule.apply op u derivative) (rule.apply op u derivative') := by
  cases rule with
  | constant => exact refl _
  | same => exact h u
  | linear | factor | divisor | negatedDivisor | oppositeOfDivisor | none =>
    exact (h u).bind fun _ => refl _

theorem derivativeOfPower (a b : Tree) :
    AgreeUnlessDeep (Tree.derivativeOfPower derivative a b)
      (Tree.derivativeOfPower derivative' a b) := by
  unfold Tree.derivativeOfPower
  split
  · exact (refl _).bind fun _ => (h _).bind fun _ => refl _
  · exact (h _).bind fun _ => refl _
  · exact (refl _).bind fun lnA => (h _).bind fun _ => (refl _).bind fun _ =>
      (h lnA).bind fun _ => refl _

theorem derivativeStep (x : String) {sum sum' : Binary → Tree → Tree → Plan Tree}
    (hsum : ∀ op a b, op.isSign = true → AgreeUnlessDeep (sum op a b) (sum' op a b)) (t : Tree) :
    AgreeUnlessDeep (t.derivativeStep x sum derivative) (t.derivativeStep x sum' derivative') := by
  cases t with
  | number | var => exact refl _
  | unary op u => exact chainRule h _ op u
  | binary op a b =>
    cases op with
    | plus | minus => exact hsum _ a b rfl
    | times =>
      exact (h b).bind fun _ => (refl _).bind fun _ => (h a).bind fun _ => refl _
    | div =>
      exact (h a).bind fun _ => (refl _).bind fun _ => (h b).bind fun _ => refl _
    | power => exact derivativeOfPower h a b
    | log => exact (refl _).bind fun _ => (refl _).bind fun _ => (refl _).bind h
    | modulo => exact (h a).bind fun _ => (h b).bind fun _ => refl _
    | _ => exact refl _

end

theorem derivativeLevels (x : String) (levels levels' : Nat) (t : Tree) :
    AgreeUnlessDeep (t.derivativeLevels x levels) (t.directDerivativeLevels x levels') := by
  induction levels' generalizing levels t with
  | zero => exact .inr (.inl rfl)
  | succ levels' ih =>
    cases levels with
    | zero => exact .inl rfl
    | succ levels =>
      rw [Tree.derivativeLevels_succ, Tree.directDerivativeLevels]
      refine derivativeStep (ih levels) x (fun op a b hop => ?_) t
      obtain ⟨n, hleft⟩ := Tree.exists_derivativeLevels_eq_foldSpine x levels a
      have ha := ih n a
      rw [hleft] at ha
      rw [Tree.foldSpine, if_pos hop]
      exact ha.bind fun _ => (ih levels b).bind fun _ => refl _

end AgreeUnlessDeep

end Simplify.Plan

/-! ### All chains -/

/-- Along the left operands, two loops do what direct recursion does with the left operand as with
any other: evaluating, simplifying and taking the derivative of a tree come to the same, an
evaluator being left the same as well, or fail in the same way, if neither is too deep. -/
theorem Tree.loops_eq_recursion [Binary64.Library] (t : Tree) :
    (∀ follows (below : Tree → Evaluator.Call Decimal) join,
      t.foldSpine follows below join = t.loopSpine follows below join) ∧
    (∀ follows (below : Tree → Plan Tree) join,
      t.foldSpine follows below join = t.loopSpine follows below join) ∧
    (∀ unit bindings resolving levels levels' (e : Evaluator),
      let looped := (t.valueLevels Evaluator.tree unit bindings levels resolving).run e
      let direct := (t.directValueLevels Evaluator.tree unit bindings levels' resolving).run e
      looped.1 ≠ .error .tooDeep → direct.1 ≠ .error .tooDeep → looped = direct) ∧
    (∀ levels levels',
      let looped := (Simplify.passLevels levels t).run .working
      let direct := (Simplify.directPassLevels levels' t).run .working
      looped ≠ .error .tooDeep → direct ≠ .error .tooDeep → looped = direct) ∧
    ∀ x levels levels',
      let looped := (t.derivativeLevels x levels).run .working
      let direct := (t.directDerivativeLevels x levels').run .working
      looped ≠ .error .tooDeep → direct ≠ .error .tooDeep → looped = direct := by
  refine ⟨fun _ _ _ => foldSpine_eq_loopSpine .., fun _ _ _ => foldSpine_eq_loopSpine ..,
    ?_, ?_, ?_⟩
  · intro unit bindings resolving levels levels' e looped direct hlooped hdirect
    have h := Evaluator.AgreeUnlessDeep.valueLevels unit bindings levels levels' resolving t e
    exact (h.resolve_left hlooped).resolve_left hdirect
  · intro levels levels' looped direct hlooped hdirect
    have h := Plan.AgreeUnlessDeep.passLevels levels levels' t
    exact (h.resolve_left hlooped).resolve_left hdirect
  · intro x levels levels' looped direct hlooped hdirect
    have h := Plan.AgreeUnlessDeep.derivativeLevels x levels levels' t
    exact (h.resolve_left hlooped).resolve_left hdirect

/-- A chain of several operators: its value stops at the quotient, before the name that is not
bound. -/
theorem Tree.loops_eq_recursion_mixed :
    let t : Tree :=
      .binary .minus
        (.binary .plus (.binary .times (.unary .abs (.var "x")) (.number .two))
          (.binary .div (.number .one) (.number .zero)))
        (.var "u")
    let bindings : Bindings := [("x", .text ['y', '+', '1']), ("y", .number .two)]
    let e := Evaluator.new .rad
    let value := (t.directValueLevels Evaluator.tree .rad bindings (maxDepth + 1) []).run e
    let simplified := (Simplify.directPassLevels (maxDepth + 1) t).run .working
    let derivative := (t.directDerivativeLevels "x" (maxDepth + 1)).run .working
    value.1 = .error (.undefined (.divisionByZero "/")) ∧ value.2.reported = [['y', '+', '1']] ∧
      simplified ≠ .error .tooDeep ∧ derivative ≠ .error .tooDeep ∧
      (t.value Evaluator.tree .rad bindings).run e = value ∧ t.simplify = simplified ∧
      t.derivative "x" = derivative := by
  intro t bindings e value simplified derivative
  have hvalue : value.1 = .error (.undefined (.divisionByZero "/")) := by decide +kernel
  have hreported : value.2.reported = [['y', '+', '1']] := by decide +kernel
  have hsimplified : simplified ≠ .error .tooDeep := by decide +kernel
  have hderivative : derivative ≠ .error .tooDeep := by decide +kernel
  obtain ⟨-, -, hvalues, hpasses, hderivatives⟩ := loops_eq_recursion t
  refine ⟨hvalue, hreported, hsimplified, hderivative, ?_, ?_, ?_⟩
  · exact hvalues _ _ _ _ _ e (by decide +kernel) (by rw [hvalue]; decide)
  · exact hpasses _ _ (by decide +kernel) hsimplified
  · exact hderivatives "x" _ _ (by decide +kernel) hderivative

end Reckon
