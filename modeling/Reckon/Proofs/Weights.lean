import Mathlib.Algebra.Order.Ring.Nat
import Mathlib.Tactic.SplitIfs
import Reckon.Proofs.Terms

/-!
# What operations cost

The trees that rules ask for are made of answers to other questions, and distribution makes them
larger, so the size of operands does not go down from one rule to the next. The `cost` of an
operation does, or it stays and the `rank` goes down: `measure` has both in one number. The cost is
a bound for the `weight` of the tree that the operation is simplified to (`IsLight`). A sum weighs
as much as its terms, a number or a variable adds nothing to what it is multiplied by, and an
exponent that is a number adds nothing to a power. A product of a number and a multiple weighs one
more, and so does a power with two numbers as exponents: there are rules that merge them.

`Descends m p P`: answered with light trees, the plan `p` asks only for operations of a measure
below `m` and has a result with `P`.
-/

namespace Reckon

namespace Tree

/-! ### Weights -/

/-- A product with a number. -/
def isMultiple : Tree → Bool
  | binary .times a b => a.isNumber || b.isNumber
  | _ => false

/-- A sum or a difference with a number. -/
def hasNumberTerm : Tree → Bool
  | binary .plus a b | binary .minus a b => a.isNumber || b.isNumber
  | _ => false

/-- A power with a number as its exponent. -/
def isNumberPower : Tree → Bool
  | binary .power _ b => b.isNumber
  | _ => false

/-- Two factors that are merged into one: a number and a multiple. -/
def areMerged (a b : Tree) : Bool :=
  a.isNumber && b.isMultiple || a.isMultiple && b.isNumber

theorem exists_of_isNumber {t : Tree} (h : t.isNumber = true) : ∃ c, t = number c := by
  cases t with
  | number c => exact ⟨c, rfl⟩
  | var | unary | binary => cases h

theorem exists_of_isMultiple {t : Tree} (h : t.isMultiple = true) :
    ∃ c x, t = binary .times (number c) x ∨ t = binary .times x (number c) := by
  unfold isMultiple at h
  split at h
  · rename_i a b
    rcases Bool.or_eq_true_iff.mp h with h | h
    · obtain ⟨c, rfl⟩ := exists_of_isNumber h
      exact ⟨c, b, .inl rfl⟩
    · obtain ⟨c, rfl⟩ := exists_of_isNumber h
      exact ⟨c, a, .inr rfl⟩
  · cases h

theorem exists_of_hasNumberTerm {t : Tree} (h : t.hasNumberTerm = true) :
    ∃ op c x, op.isSign = true ∧ (t = binary op (number c) x ∨ t = binary op x (number c)) := by
  unfold hasNumberTerm at h
  split at h
  · rename_i a b
    rcases Bool.or_eq_true_iff.mp h with h | h
    · obtain ⟨c, rfl⟩ := exists_of_isNumber h
      exact ⟨.plus, c, b, rfl, .inl rfl⟩
    · obtain ⟨c, rfl⟩ := exists_of_isNumber h
      exact ⟨.plus, c, a, rfl, .inr rfl⟩
  · rename_i a b
    rcases Bool.or_eq_true_iff.mp h with h | h
    · obtain ⟨c, rfl⟩ := exists_of_isNumber h
      exact ⟨.minus, c, b, rfl, .inl rfl⟩
    · obtain ⟨c, rfl⟩ := exists_of_isNumber h
      exact ⟨.minus, c, a, rfl, .inr rfl⟩
  · cases h

def weight : Tree → Nat
  | binary .plus a b | binary .minus a b => a.weight + b.weight
  | binary .times a b =>
    (if a.isCompound && b.isCompound then a.weight + b.weight else max a.weight b.weight) +
      if areMerged a b then 1 else 0
  | binary .div a b => a.weight + b.weight + 1
  | binary .power a b =>
    (a.weight + if b.isNumber then 0 else if b.hasNumberTerm then b.weight else b.weight + 1) +
      if a.isNumberPower && b.isNumber then 1 else 0
  | _ => 1

/-- What a tree adds to the weight of a power whose exponent it is. One may be added to it at no
cost, unless it has a number as a term already. -/
def load (t : Tree) : Nat :=
  if t.isNumber then 0 else if t.hasNumberTerm then t.weight else t.weight + 1

variable {a b t : Tree} {c : Decimal}

theorem isMultiple_of_not_isCompound (ht : t.isCompound = false) : t.isMultiple = false := by
  cases t with
  | number | var => rfl
  | unary | binary => cases ht

theorem hasNumberTerm_of_not_isCompound (ht : t.isCompound = false) : t.hasNumberTerm = false := by
  cases t with
  | number | var => rfl
  | unary | binary => cases ht

theorem areMerged_atom_left (ha : a.isCompound = false) (b : Tree) :
    areMerged a b = (a.isNumber && b.isMultiple) := by
  rw [areMerged, isMultiple_of_not_isCompound ha, Bool.false_and, Bool.or_false]

theorem areMerged_atom_right (a : Tree) (hb : b.isCompound = false) :
    areMerged a b = (b.isNumber && a.isMultiple) := by
  rw [areMerged, isMultiple_of_not_isCompound hb, Bool.and_false, Bool.false_or, Bool.and_comm]

@[simp, grind =] theorem weight_number : (number c).weight = 1 := rfl

@[simp, grind =] theorem weight_var {x : String} : (var x).weight = 1 := rfl

@[simp, grind =] theorem weight_plus : (binary .plus a b).weight = a.weight + b.weight := rfl

@[simp, grind =] theorem weight_minus : (binary .minus a b).weight = a.weight + b.weight := rfl

@[simp, grind =] theorem weight_div : (binary .div a b).weight = a.weight + b.weight + 1 := rfl

theorem weight_times : (binary .times a b).weight =
    (if a.isCompound && b.isCompound then a.weight + b.weight else max a.weight b.weight) +
      if areMerged a b then 1 else 0 := rfl

theorem weight_power : (binary .power a b).weight =
    a.weight + b.load + if a.isNumberPower && b.isNumber then 1 else 0 := rfl

theorem weight_of_not_isCompound (ht : t.isCompound = false) : t.weight = 1 := by
  cases t with
  | number | var => rfl
  | unary | binary => cases ht

theorem one_le_weight (t : Tree) : 1 ≤ t.weight := by
  induction t with
  | number | var | unary => exact le_rfl
  | binary op a b iha ihb =>
    cases op with
    | plus | minus =>
      rw [weight]
      omega
    | times =>
      rw [weight_times]
      split <;> omega
    | div =>
      rw [weight_div]
      omega
    | power =>
      rw [weight_power]
      omega
    | _ => exact le_rfl

@[grind .] theorem weight_ne_zero (t : Tree) : t.weight ≠ 0 :=
  Nat.one_le_iff_ne_zero.mp t.one_le_weight

theorem load_of_isNumber (h : t.isNumber = true) : t.load = 0 := by
  obtain ⟨c, rfl⟩ := exists_of_isNumber h
  rfl

theorem isCompound_of_isNumber (h : t.isNumber = true) : t.isCompound = false := by
  obtain ⟨c, rfl⟩ := exists_of_isNumber h
  rfl

theorem load_le (t : Tree) : t.load ≤ t.weight + 1 := by
  rw [load]
  split_ifs <;> omega

theorem load_of_hasNumberTerm (ht : t.hasNumberTerm = true) : t.load = t.weight := by
  have hnumber : t.isNumber = false := by
    cases t with
    | number => cases ht
    | var | unary | binary => rfl
  rw [load, hnumber, ht]
  rfl

theorem load_of_not_hasNumberTerm (hnumber : t.isNumber = false) (ht : t.hasNumberTerm = false) :
    t.load = t.weight + 1 := by
  rw [load, hnumber, ht]
  rfl

theorem load_number_left {op : Binary} (hop : op.isSign = true) (c : Decimal) (t : Tree) :
    (binary op (number c) t).load = t.weight + 1 := by
  have hterm : (binary op (number c) t).hasNumberTerm = true := by
    cases op with
    | plus | minus => rfl
    | _ => cases hop
  rw [load_of_hasNumberTerm hterm, Nat.add_comm]
  cases op with
  | plus | minus => rfl
  | _ => cases hop

theorem load_number_right {op : Binary} (hop : op.isSign = true) (t : Tree) (c : Decimal) :
    (binary op t (number c)).load = t.weight + 1 := by
  have hterm : (binary op t (number c)).hasNumberTerm = true := by
    cases op with
    | plus | minus => exact Bool.or_true _
    | _ => cases hop
  rw [load_of_hasNumberTerm hterm]
  cases op with
  | plus | minus => rfl
  | _ => cases hop

theorem weight_le_load (hnumber : t.isNumber = false) : t.weight ≤ t.load := by
  rw [load, hnumber, if_neg Bool.false_ne_true]
  split_ifs <;> omega

theorem isNumber_of_load_eq_zero (h : t.load = 0) : t.isNumber = true := by
  by_contra hnumber
  have hweight := one_le_weight t
  rw [load, if_neg hnumber] at h
  split_ifs at h
  omega

/-- A variable adds nothing to what it is multiplied by. -/
theorem weight_times_var {x : String} : (binary .times (var x) t).weight = t.weight :=
  max_eq_right t.one_le_weight

theorem weight_number_times :
    (binary .times (number c) t).weight = t.weight + if t.isMultiple then 1 else 0 := by
  have ht := t.one_le_weight
  have hmerged : areMerged (number c) t = t.isMultiple := by simp [areMerged, isNumber, isMultiple]
  rw [weight_times, hmerged]
  congr 1
  exact max_eq_right ht

theorem weight_times_number :
    (binary .times t (number c)).weight = t.weight + if t.isMultiple then 1 else 0 := by
  have ht := t.one_le_weight
  have hmerged : areMerged t (number c) = t.isMultiple := by simp [areMerged, isNumber, isMultiple]
  rw [weight_times, hmerged, isCompound, isCompound.eq_def, Bool.and_false]
  congr 1
  exact max_eq_left ht

/-- A tree weighs no more than it has nodes. -/
theorem weight_le_size (t : Tree) : t.weight ≤ t.size := by
  induction t with
  | number | var => exact le_rfl
  | unary op a => exact Nat.succ_le_succ (Nat.zero_le _)
  | binary op a b iha ihb =>
    rw [size]
    cases op with
    | plus | minus =>
      rw [weight]
      omega
    | times =>
      rw [weight_times]
      split_ifs <;> omega
    | div =>
      rw [weight_div]
      omega
    | power =>
      rw [weight]
      cases b.isNumber
      · simp only [Bool.and_false, Bool.false_eq_true, if_false]
        split_ifs <;> omega
      · simp only [Bool.and_true, if_true]
        split_ifs <;> omega
    | _ => exact Nat.le_add_left ..

end Tree

namespace Simplify

open Reckon.Tree (number var unary binary)

/-! ### Costs -/

/-- The most that the simplified tree of an operation weighs. -/
def cost (op : Binary) (a b : Tree) : Nat :=
  match op with
  | .plus | .minus => if a.isNumber && b.isNumber then 1 else a.weight + b.weight
  | .times => if a.isCompound && b.isCompound then a.weight + b.weight else max a.weight b.weight
  | .div => a.weight + b.weight + 1
  | .power => (binary .power a b).weight
  | _ => 1

/-- Operators in the order in which rules turn to them at no lower cost. -/
def rank (op : Binary) (a b : Tree) : Nat :=
  match op with
  | .times => if Tree.areMerged a b then 3 else 2
  | .div | .power => 1
  | _ => 0

/-- The measure that goes down from an operation to those that its rule asks for. -/
def measure (op : Binary) (a b : Tree) : Nat :=
  4 * cost op a b + rank op a b

variable {op : Binary} {a b p s t x : Tree} {c d : Decimal}

theorem cost_sign_le (hop : op.isSign = true) (a b : Tree) :
    cost op a b ≤ a.weight + b.weight := by
  have ha := a.one_le_weight
  cases op with
  | plus | minus =>
    rw [cost]
    split_ifs <;> omega
  | _ => cases hop

theorem rank_sign (hop : op.isSign = true) (a b : Tree) : rank op a b = 0 := by
  cases op with
  | plus | minus => rfl
  | _ => cases hop

/-- Only numbers are added and subtracted at a lower cost. -/
theorem cost_sign (hop : op.isSign = true) (h : ∀ c d, a = number c → b = number d → False) :
    cost op a b = a.weight + b.weight := by
  have hnumbers : ¬ (a.isNumber && b.isNumber) = true := by
    cases a with
    | number c =>
      cases b with
      | number d => exact absurd rfl (h c d rfl)
      | var | unary | binary => simp [Tree.isNumber]
    | var | unary | binary => simp [Tree.isNumber]
  cases op with
  | plus | minus => exact if_neg hnumbers
  | _ => cases hop

theorem measure_sign (hop : op.isSign = true) (h : ∀ c d, a = number c → b = number d → False) :
    measure op a b = 4 * (a.weight + b.weight) := by
  rw [measure, cost_sign hop h, rank_sign hop, Nat.add_zero]

theorem cost_times_le (a b : Tree) : cost .times a b ≤ a.weight + b.weight := by
  rw [cost]
  split_ifs <;> omega

/-- A factor that is no operation adds nothing. -/
theorem cost_times_atom (ha : a.isCompound = false) (b : Tree) : cost .times a b = b.weight := by
  have hb := b.one_le_weight
  rw [cost, ha, Tree.weight_of_not_isCompound ha]
  exact max_eq_right hb

theorem cost_times_atom_right (a : Tree) (hb : b.isCompound = false) :
    cost .times a b = a.weight := by
  have ha := a.one_le_weight
  rw [cost, hb, Bool.and_false, Tree.weight_of_not_isCompound hb]
  exact max_eq_left ha

theorem cost_times_compounds (ha : a.isCompound = true) (hb : b.isCompound = true) :
    cost .times a b = a.weight + b.weight := by
  rw [cost, ha, hb]
  rfl

theorem two_le_rank_times (a b : Tree) : 2 ≤ rank .times a b := by
  rw [rank]
  split_ifs <;> decide

theorem weight_le_cost_times_left (a b : Tree) : a.weight ≤ cost .times a b := by
  rw [cost]
  split_ifs <;> omega

theorem weight_le_cost_times_right (a b : Tree) : b.weight ≤ cost .times a b := by
  rw [cost]
  split_ifs <;> omega

theorem cost_times_le_weight (a b : Tree) : cost .times a b ≤ (binary .times a b).weight :=
  Nat.le_add_right ..

theorem one_le_cost (op : Binary) (a b : Tree) : 1 ≤ cost op a b := by
  have ha := a.one_le_weight
  cases op with
  | plus | minus =>
    rw [cost]
    split_ifs <;> omega
  | times => exact ha.trans (weight_le_cost_times_left a b)
  | div => exact Nat.le_add_left ..
  | power => exact Tree.one_le_weight _
  | _ => exact le_rfl

theorem rank_le (op : Binary) (a b : Tree) : rank op a b ≤ 3 := by
  cases op with
  | times =>
    rw [rank]
    split <;> decide
  | div | power => exact (by decide : 1 ≤ 3)
  | _ => exact Nat.zero_le 3

/-- Measures are bounded by the sizes of the operands. -/
theorem measure_le (op : Binary) (a b : Tree) : measure op a b ≤ 4 * (a.size + b.size + 1) + 3 := by
  have ha := a.weight_le_size
  have hb := b.weight_le_size
  have hcost : cost op a b ≤ a.size + b.size + 1 := by
    cases op with
    | plus | minus =>
      refine (cost_sign_le rfl a b).trans ?_
      omega
    | times =>
      have := cost_times_le a b
      omega
    | div =>
      rw [cost]
      omega
    | power => exact Tree.weight_le_size _
    | _ => exact Nat.le_add_left ..
  have hrank := rank_le op a b
  rw [measure]
  omega

/-! ### Light trees -/

/-- A tree that an operation may be simplified to. A number that is added, subtracted or multiplied
does not make an exponent heavier. -/
structure IsLight (op : Binary) (a b s : Tree) : Prop where
  weight_le : s.weight ≤ cost op a b
  load_le_right : (op.isSign || op == .times) = true → a.isNumber = true → s.load ≤ b.load
  load_le_left : (op.isSign || op == .times) = true → b.isNumber = true → s.load ≤ a.load

/-- Trees are light; numbers may be any. -/
def Light : Expectation
  | .tree op a b, s => IsLight op a b s
  | _, _ => True

/-- A question is not for an operation of measure `m` or more. -/
def Question.IsBelow (m : Nat) : Question → Prop
  | .tree op a b => measure op a b < m
  | _ => True

/-- Operations of a measure below `m` may be asked for, light trees are expected, and failures are
numeric. -/
def descending (m : Nat) : Terms where
  ask := Question.IsBelow m
  answer := Light
  fail := Failure.IsNumeric

abbrev Descends (m : Nat) {α : Type} (p : Plan α) (P : α → Prop) : Prop :=
  Respects (descending m) p P

namespace Descends
variable {α : Type} {m n : Nat} {p : Plan α} {P : α → Prop}

theorem weaken (h : Descends m p P) (hmn : m ≤ n) : Descends n p P := by
  refine Respects.weaken h (fun q hq => ?_) (fun _ _ ha => ha) fun _ hf => hf
  cases q with
  | number | integer => trivial
  | tree op a b => exact Nat.lt_of_lt_of_le hq hmn

theorem signal (r : Except Signal α) :
    Descends m (Plan.ofExcept (r.mapError .signal)) fun _ => True := by
  cases r with
  | error f => trivial
  | ok a => trivial

end Descends

/-- The plan builds a tree of weight `n` at most. -/
abbrev Lightens (m : Nat) (p : Plan Tree) (n : Nat) : Prop :=
  Descends m p fun s => s.weight ≤ n

namespace Lightens
variable {m n k : Nat} {p : Plan Tree}

theorem done (h : t.weight ≤ n) : Lightens m (.done t) n :=
  h

theorem le (h : Lightens m p n) (hnk : n ≤ k) : Lightens m p k :=
  h.mono fun _ hs => hs.trans hnk

theorem combine (h : measure op a b < m) :
    Lightens m (Plan.combine op a b) (cost op a b) :=
  ⟨h, fun _ hs => hs.weight_le⟩

theorem sign (hop : op.isSign = true) (h : 4 * (a.weight + b.weight) < m) :
    Lightens m (Plan.combine op a b) (a.weight + b.weight) := by
  have hcost := cost_sign_le hop a b
  refine (combine ?_).le hcost
  rw [measure, rank_sign hop]
  omega

theorem times (h : 4 * (a.weight + b.weight) + 3 < m) :
    Lightens m (Plan.combine .times a b) (a.weight + b.weight) := by
  have hcost := cost_times_le a b
  have hrank := rank_le .times a b
  refine (combine ?_).le hcost
  rw [measure]
  omega

theorem timesAtom (ha : a.isCompound = false) (h : 4 * b.weight + 3 < m) :
    Lightens m (Plan.combine .times a b) b.weight := by
  have hcost := cost_times_atom ha b
  have hrank := rank_le .times a b
  refine (combine ?_).le hcost.le
  rw [measure]
  omega

theorem div (h : 4 * (a.weight + b.weight + 1) + 1 < m) :
    Lightens m (Plan.combine .div a b) (a.weight + b.weight + 1) :=
  combine h

theorem twice (h : 4 * t.weight + 3 < m) : Lightens m (twice t) t.weight :=
  timesAtom rfl h

theorem opposite (h : 4 * t.weight + 3 < m) : Lightens m (opposite t) t.weight :=
  timesAtom rfl h

theorem square (h : 4 * (t.weight + 1) + 1 < m) : Lightens m (square t) (t.weight + 1) := by
  have hweight : (binary .power t .two).weight ≤ t.weight + 1 := by
    rw [Tree.weight_power]
    change t.weight + 0 + _ ≤ _
    split_ifs <;> omega
  refine (combine ?_).le hweight
  rw [measure, cost, rank]
  omega

end Lightens

/-- The plan builds a number. -/
abbrev BuildsNumber (m : Nat) (p : Plan Tree) : Prop :=
  Descends m p fun s => s.isNumber = true

namespace Lightens
variable {m n : Nat}

theorem kept (c : Decimal) : BuildsNumber m (kept c) :=
  ⟨trivial, fun _ _ => rfl⟩

theorem rounded (c : Computation) : BuildsNumber m (rounded c) :=
  ⟨trivial, fun a _ => kept a⟩

theorem negated (c : Decimal) : BuildsNumber m (negated c) :=
  rounded _

/-- A sum or a difference of numbers is a number. -/
theorem numbers (hop : op.isSign = true) (h : 4 < m) :
    BuildsNumber m (Plan.combine op (number c) (number d)) := by
  refine ⟨?_, fun s hs => ?_⟩
  · cases op with
    | plus | minus => exact h
    | _ => cases hop
  · have hload : s.load ≤ 0 := hs.load_le_right (by rw [hop]; rfl) rfl
    exact Tree.isNumber_of_load_eq_zero (Nat.le_zero.mp hload)

theorem of_number {p : Plan Tree} (h : BuildsNumber m p) : Lightens m p 1 := by
  refine h.mono fun s hs => ?_
  cases s with
  | number c => exact le_rfl
  | var | unary | binary => cases hs

/-- A tree is multiplied by a sum or a difference of numbers. -/
theorem scaled (hop : op.isSign = true) (h : 4 * t.weight + 3 < m) :
    Lightens m (Plan.combine op (number c) (number d) >>= fun s => Plan.combine .times s t)
      t.weight := by
  have ht := t.one_le_weight
  refine (numbers hop (by omega)).bind fun s hs => timesAtom ?_ h
  cases s with
  | number c => rfl
  | var | unary | binary => cases hs

theorem oneMore (h : 4 * t.weight + 3 < m) : Lightens m (oneMore c t) t.weight :=
  scaled rfl h

theorem oneLess (h : 4 * t.weight + 3 < m) : Lightens m (oneLess c t) t.weight :=
  scaled rfl h

theorem oneMinus (h : 4 * t.weight + 3 < m) : Lightens m (oneMinus c t) t.weight :=
  scaled rfl h

theorem minusOneMinus (h : 4 * t.weight + 3 < m) : Lightens m (minusOneMinus c t) t.weight :=
  scaled rfl h

end Lightens

end Simplify

end Reckon
