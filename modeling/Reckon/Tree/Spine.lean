import Reckon.Tree.Basic

/-!
# Along the left operands

A sum of many terms is a tree that leans to the left. `foldSpine` walks down the left operands and
comes back joining one right operand after the other, so that `a + b + c` counts as one level and
not as two.
-/

namespace Reckon.Tree

variable {m : Type → Type} [Monad m] {α : Type}

/-- Follows the left operands as long as `follows` says so; `below` takes the tree where it stops
and every right operand on the way back. -/
def foldSpine (follows : Binary → Bool) (below : Tree → m α) (join : Binary → α → α → m α) :
    Tree → m α
  | binary op l r =>
    if follows op then do
      let a ← foldSpine follows below join l
      let b ← below r
      join op a b
    else below (binary op l r)
  | t => below t

/-- All operators are followed. -/
def foldChain (below : Tree → m α) (join : Binary → α → α → m α) : Tree → m α :=
  foldSpine (fun _ => true) below join

theorem foldChain_binary (below : Tree → m α) (join : Binary → α → α → m α) (op : Binary)
    (l r : Tree) :
    (binary op l r).foldChain below join =
      l.foldChain below join >>= fun a => below r >>= fun b => join op a b := by
  rw [foldChain, foldSpine, if_pos rfl]

end Reckon.Tree
