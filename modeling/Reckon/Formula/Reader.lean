import Reckon.Formula.Prepared
import Reckon.Tree.Basic

/-!
# Reading formulas

`read` makes a tree of a prepared text. There are no tokens: `argument` finds the end of an
operand by looking ahead for the first operator that does not bind tighter than the one whose
operand is read, jumping over brackets, and the operand is then read as a text of its own, one
level deeper. `readChain` runs along the text and collects operands from left to right.
-/

namespace Reckon.Formula

/-- The place where the brackets opened so far are closed. -/
def closingFrom (depth : Int) (place : Nat) : List Char → Option Nat
  | [] => none
  | c :: s =>
    let depth := if c = '(' then depth + 1 else if c = ')' then depth - 1 else depth
    if depth = 0 then some place else closingFrom depth (place + 1) s

/-- The place of the bracket that closes the one at the beginning of the text. -/
def closing? (s : List Char) : Option Nat :=
  closingFrom 0 0 s

/-- What stands between a pair of brackets that encloses the whole text. A bracket that is never
closed counts as closed where it is opened, so a single one encloses nothing. -/
def enclosed? (s : List Char) : Option (List Char) :=
  match s with
  | '(' :: inner => if (closing? s).getD 0 = inner.length then some inner.dropLast else none
  | _ => none

/-- Whether an operator ends the operand of `op`; without `op` every operator does. -/
def endsOperandOf (op : Option Operator) (next : Operator) : Bool :=
  op.all fun op => op.rank ≤ next.rank

/-- Cuts the text behind the operand of `op`. `taken` is what the operand has so far, last
character first. -/
def argumentFrom (op : Option Operator) (taken : List Char) (s : List Char) :
    List Char × List Char :=
  match s with
  | [] => (taken.reverse, [])
  | c :: rest =>
    if c = '(' then
      let k := (closing? (c :: rest)).getD 0
      argumentFrom op ((c :: rest.take k).reverse ++ taken) (rest.drop k)
    else
      match _ : Operator.longestMatch (c :: rest) with
      | none => argumentFrom op (c :: taken) rest
      | some next =>
        if !taken.isEmpty && !isBinaryOperator (backTrack taken) && endsOperandOf op next then
          (taken.reverse, c :: rest)
        else
          argumentFrom op (next.symbol.reverse ++ taken) ((c :: rest).drop next.symbol.length)
termination_by s.length
decreasing_by
  · simp only [List.length_drop, List.length_cons]; omega
  · simp
  · exact Operator.length_drop_symbol_lt ‹_›

/-- The operand of `op` at the beginning of the text, and the text behind it. -/
def argument (op : Option Operator) (s : List Char) : List Char × List Char :=
  argumentFrom op [] s

theorem length_argumentFrom_le (op : Option Operator) (taken s : List Char) :
    (argumentFrom op taken s).2.length ≤ s.length := by
  fun_induction argumentFrom op taken s with
  | case1 => simp
  | case2 taken rest k ih =>
    simp only [List.length_drop, List.length_cons] at ih ⊢
    omega
  | case3 taken c rest hc h ih => exact Nat.le_succ_of_le ih
  | case4 => simp
  | case5 taken c rest hc next h hn ih =>
    exact Nat.le_trans ih (Nat.le_of_lt (Operator.length_drop_symbol_lt h))

theorem length_argument_le (op : Option Operator) (s : List Char) :
    (argument op s).2.length ≤ s.length :=
  length_argumentFrom_le op [] s

theorem length_argument_drop_lt {s : List Char} {op : Operator}
    (h : Operator.longestMatch s = some op) (op' : Option Operator) :
    (argument op' (s.drop op.symbol.length)).2.length < s.length :=
  Nat.lt_of_le_of_lt (length_argument_le ..) (Operator.length_drop_symbol_lt h)

/-- Reads on behind the operand `tree`; `below` reads operands and `whole` is the text as it
began. -/
def readChain (below : List Char → Except Failure Tree) (whole : List Char) (tree : Option Tree)
    (s : List Char) : Except Failure Tree :=
  match s with
  | [] =>
    match tree with
    | some tree => .ok tree
    | none => .error (.malformed .noOperand)
  | c :: rest =>
    match _ : Operator.longestMatch (c :: rest) with
    | none =>
      if tree.isSome then .error (.malformed (.operandAfterOperand (String.ofList (c :: rest))))
      else
        let first := argument none (c :: rest)
        match _ : Operator.longestMatch first.2 with
        | none => .error (.malformed (.loneOperand (String.ofList whole)))
        | some (.unary op) =>
          .error (.malformed (.unaryAfterOperand op.name (String.ofList first.1)))
        | some (.binary op) =>
          let second := argument (some (.binary op)) (first.2.drop op.symbol.length)
          if second.1.isEmpty then .error (.malformed (.operandCount op.name))
          else do
            let left ← below first.1
            let right ← below second.1
            readChain below whole (some (.binary op left right)) second.2
    | some (.binary op) =>
      let operand := argument (some (.binary op)) ((c :: rest).drop op.symbol.length)
      if operand.1.isEmpty || (tree.isNone && !op.isSign) then
        .error (.malformed (.operandCount op.name))
      else do
        let right ← below operand.1
        readChain below whole (some (.binary op (tree.getD .zero) right)) operand.2
    | some (.unary op) =>
      let operand := argument (some (.unary op)) ((c :: rest).drop op.symbol.length)
      if operand.1.isEmpty then .error (.malformed (.operandCount op.name))
      else if tree.isSome then .error (.malformed (.operandBeforeUnary op.name))
      else do
        let operandTree ← below operand.1
        readChain below whole (some (.unary op operandTree)) operand.2
termination_by s.length
decreasing_by
  · exact Nat.lt_of_lt_of_le (length_argument_drop_lt ‹_› _) (length_argument_le ..)
  · exact length_argument_drop_lt ‹_› _
  · exact length_argument_drop_lt ‹_› _

/-- Reads a text of at most `levels` levels. -/
def readLevels : (levels : Nat) → List Char → Except Failure Tree
  | 0, _ => .error .tooDeep
  | levels + 1, s =>
    if s.isEmpty then .error (.malformed .noOperand)
    else
      match enclosed? s with
      | some inner => readLevels levels inner
      | none =>
        if isName s then .ok (.var (String.ofList s))
        else
          match number? s with
          | some a => .ok (.number a)
          | none => readChain (readLevels levels) s none s

/-- The tree of a prepared text. -/
def read (s : List Char) : Except Failure Tree :=
  readLevels (maxDepth + 1) s

/-- The tree of a formula as it was typed. -/
def readFormula (s : List Char) : Except Failure Tree := do
  let prepared ← prepare s
  validate prepared
  read prepared

end Reckon.Formula
