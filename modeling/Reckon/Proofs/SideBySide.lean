import Reckon.Tree.Value

/-!
# Evaluations side by side

Two evaluations of a tree may read the texts in it in different ways, and each may keep a state of
its own. What their readers have in common the evaluations have in common: a relation between
computations that holds of what is put together from related steps (`IsCarried`) holds of the values
of a tree if it holds of both readers (`IsCarried.valueAt`), also on two call stacks if these do not
break it.
-/

namespace Reckon

section
variable {m n : Type → Type} [Monad m] [MonadExceptOf Failure m] [Monad n]
  [MonadExceptOf Failure n]

/-- A relation between computations of two kinds that is carried from steps to what is put together
from them. -/
structure IsCarried (R : (α : Type) → m α → n α → Prop) : Prop where
  pure {α : Type} (a : α) : R α (pure a) (pure a)
  throw {α : Type} (f : Failure) : R α (throw f) (throw f)
  bind {α β : Type} {x : m α} {y : n α} {f : α → m β} {g : α → n β} :
    R α x y → (∀ a, R β (f a) (g a)) → R β (x >>= f) (y >>= g)

end

namespace IsCarried
variable {m n : Type → Type} [Monad m] [MonadExceptOf Failure m] [Monad n]
  [MonadExceptOf Failure n] {R : (α : Type) → m α → n α → Prop} (h : IsCarried R)
  {unit : AngleUnit} {bindings : Bindings} {α : Type}
include h

theorem ofExcept (r : Except Failure α) :
    R α (MonadExcept.ofExcept r) (MonadExcept.ofExcept r) := by
  cases r with
  | error f => exact h.throw f
  | ok a => exact h.pure a

theorem resolve {resolving : List String} {follow : List Char → m Decimal}
    {follow' : List Char → n Decimal} (hfollow : ∀ s, R Decimal (follow s) (follow' s))
    (x : String) :
    R Decimal (Tree.resolve bindings resolving follow x)
      (Tree.resolve bindings resolving follow' x) := by
  unfold Tree.resolve
  split
  · exact h.pure _
  split
  · exact h.throw _
  split
  · exact h.throw _
  split
  · exact h.throw _
  · exact h.pure _
  simp only
  split
  · split
    · exact h.pure _
    · exact h.throw _
  · exact hfollow _

theorem foldSpine {follows : Binary → Bool} {below : Tree → m α} {below' : Tree → n α}
    {join : Binary → α → α → m α} {join' : Binary → α → α → n α}
    (hbelow : ∀ t, R α (below t) (below' t))
    (hjoin : ∀ op a b, R α (join op a b) (join' op a b)) (t : Tree) :
    R α (t.foldSpine follows below join) (t.foldSpine follows below' join') := by
  induction t with
  | number | var | unary => exact hbelow _
  | binary op l r ihl _ =>
    rw [Tree.foldSpine, Tree.foldSpine]
    split
    · exact h.bind ihl fun a => h.bind (hbelow r) fun b => hjoin op a b
    · exact hbelow _

variable [Binary64.Library]

section
variable {stack stack' : CallStack} {read : Nat → List Char → m Tree}
  {read' : Nat → List Char → n Tree}
  (hwithin : ∀ calls (x : m Decimal) (y : n Decimal), R Decimal x y →
    R Decimal (stack.within calls x) (stack'.within calls y))
  (hread : ∀ calls s, R Tree (read calls s) (read' calls s))
include hwithin hread

theorem valueAt (levels : Nat) (resolving : List String) (t : Tree) :
    R Decimal (t.valueAt stack read unit bindings levels resolving)
      (t.valueAt stack' read' unit bindings levels resolving) := by
  induction levels generalizing resolving t with
  | zero => exact hwithin _ _ _ (h.throw _)
  | succ levels ih =>
    refine hwithin (Tree.openCalls (levels + 1) resolving) _ _ ?_
    cases t with
    | number a => exact h.pure a
    | var x => exact h.resolve (fun s => h.bind (hread _ s) fun t => ih (x :: resolving) t) x
    | unary op a => exact h.bind (ih resolving a) fun a => h.ofExcept (op.apply unit a)
    | binary op l r => exact h.foldSpine (ih resolving) (fun op a b => h.ofExcept (op.apply a b)) _

theorem evaluateOn (s : List Char) :
    R Decimal (Formula.evaluateOn stack read unit bindings s)
      (Formula.evaluateOn stack' read' unit bindings s) :=
  h.bind (hread 0 s) fun t => h.valueAt hwithin hread _ [] t

end

theorem valueLevels {read : List Char → m Tree} {read' : List Char → n Tree}
    (hread : ∀ s, R Tree (read s) (read' s)) (levels : Nat) (resolving : List String) (t : Tree) :
    R Decimal (t.valueLevels read unit bindings levels resolving)
      (t.valueLevels read' unit bindings levels resolving) := by
  refine h.valueAt (fun calls x y hxy => ?_) (fun _ => hread) levels resolving t
  rwa [CallStack.within_boundless, CallStack.within_boundless]

end IsCarried

end Reckon
