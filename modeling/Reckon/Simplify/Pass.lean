import Reckon.Simplify.Combine
import Reckon.Tree.Spine

/-!
# Simplifying whole trees

One pass rebuilds a tree from its leaves up. `settle` repeats the pass until it changes nothing.

The levels are those that the program counts. How many calls the rules and the comparison of two
trees open on a long chain is not counted here: a machine whose call stack is too small for them
fails, and `CallStack.carries` says for which trees it does not.
-/

namespace Reckon

namespace Simplify

/-- One pass over a tree of at most `levels` levels, on a call stack that is large enough. -/
def passLevels : (levels : Nat) → Tree → Plan Tree
  | 0, _ => .fail .tooDeep
  | levels + 1, t =>
    match t with
    | .number _ | .var _ => .done t
    | .unary op a => do unaryRule op (← passLevels levels a)
    | .binary .. => t.foldChain (passLevels levels) Plan.combine

def pass (t : Tree) : Plan Tree :=
  passLevels (maxDepth + 1) t

/-- How many passes there may be. -/
def maxPasses : Nat := 100

/-- A tree after passes over it, with their number if the last one changed nothing. -/
structure Settled where
  tree : Tree
  passes : Option Nat

/-- Passes over the tree until one changes nothing, at most `left` times. -/
def settleFrom (done : Nat) : (left : Nat) → Tree → Plan Settled
  | 0, t => .done ⟨t, none⟩
  | left + 1, t => do
    let s ← pass t
    if s.same t then return ⟨s, some (done + 1)⟩ else settleFrom (done + 1) left s

/-- The tree simplified until nothing changes. -/
def settled (t : Tree) : Plan Settled :=
  settleFrom 0 maxPasses t

/-- What it comes to on a call stack that is large enough. -/
def settle (t : Tree) : Except Failure Settled :=
  (settled t).run .working

end Simplify

namespace Tree

/-- One simplifying pass. -/
def simplify (t : Tree) : Except Failure Tree :=
  (Simplify.pass t).run .working

/-- The tree simplified until nothing changes. -/
def simplifyFully (t : Tree) : Except Failure Tree :=
  return (← Simplify.settle t).tree

end Tree

end Reckon
