import Reckon.Proofs.DecimalOrder
import Reckon.Proofs.WeightRules

/-!
# Rules for linear trees

A tree `isLinear` if it is made of finite numbers and variables by sums, differences and products
with a number. The rules for such operations ask for such operations only, never fail of their own
accord, and build linear trees (`Stays.rule`).
-/

namespace Reckon

theorem Decimal.exists_toRat? {a : Decimal} (h : a.isFinite = true) : ∃ q, a.toRat? = some q := by
  cases a with
  | finite negative c e => exact ⟨_, toRat?_finite negative c e⟩
  | infinite | nan => cases h

/-- Sums, differences and multiples of finite numbers and variables. -/
def Tree.isLinear : Tree → Bool
  | number a => a.isFinite
  | var _ => true
  | binary .plus a b | binary .minus a b => a.isLinear && b.isLinear
  | binary .times a b => (a.isNumber || b.isNumber) && (a.isLinear && b.isLinear)
  | _ => false

namespace Simplify

open Reckon.Tree (number var unary binary)

variable {op : Binary} {p q r s t x a b : Tree} {c d : Decimal}

theorem isLinear_sign (hop : op.isSign = true) :
    (binary op a b).isLinear = true ↔ a.isLinear = true ∧ b.isLinear = true := by
  cases op with
  | plus | minus => exact Bool.and_eq_true_iff
  | _ => cases hop

/-- A sum or a difference, or a product with a number in front. -/
def IsLinearIn (op : Binary) (a : Tree) : Prop :=
  op.isSign = true ∨ op = .times ∧ a.isNumber = true

/-- What one may ask for, and what one may expect, where trees are linear. No rule fails. -/
def linear : Terms where
  ask
    | .tree op a b => IsLinearIn op a ∧ a.isLinear = true ∧ b.isLinear = true
    | .number _ => True
    | .integer _ => False
  answer
    | .tree _ a b, s =>
      s.isLinear = true ∧ (a.isNumber = true → b.isNumber = true → s.isNumber = true)
    | .number _, a => a.isFinite = true
    | .integer _, _ => True
  fail _ := False

/-- The plan keeps to linear trees and builds one. -/
abbrev Stays (p : Plan Tree) : Prop :=
  Respects linear p fun s => s.isLinear = true

/-- The plan keeps to linear trees and builds a finite number. -/
abbrev StaysNumber (p : Plan Tree) : Prop :=
  Respects linear p fun s => s.isNumber = true ∧ s.isLinear = true

namespace Stays

theorem done (h : t.isLinear = true) : Stays (.done t) :=
  h

theorem sign (hop : op.isSign = true) (ha : a.isLinear = true) (hb : b.isLinear = true) :
    Stays (Plan.combine op a b) :=
  ⟨⟨.inl hop, ha, hb⟩, fun _ hs => hs.1⟩

theorem scaled (hs : s.isNumber = true ∧ s.isLinear = true) (ht : t.isLinear = true) :
    Stays (Plan.combine .times s t) :=
  ⟨⟨.inr ⟨rfl, hs.1⟩, hs.2, ht⟩, fun _ hr => hr.1⟩

theorem twice (ht : t.isLinear = true) : Stays (twice t) :=
  scaled ⟨rfl, rfl⟩ ht

theorem opposite (ht : t.isLinear = true) : Stays (opposite t) :=
  scaled ⟨rfl, rfl⟩ ht

theorem kept (c : Decimal) : StaysNumber (kept c) :=
  ⟨trivial, fun _ ha => ⟨rfl, ha⟩⟩

theorem rounded (c : Computation) : StaysNumber (rounded c) :=
  ⟨trivial, fun a _ => kept a⟩

theorem negated (c : Decimal) : StaysNumber (negated c) :=
  rounded _

/-- A tree is multiplied by a sum or a difference of numbers. -/
theorem multiple (hop : op.isSign = true) (ha : a.isNumber = true ∧ a.isLinear = true)
    (hb : b.isNumber = true ∧ b.isLinear = true) (ht : t.isLinear = true) :
    Stays (Plan.combine op a b >>= fun s => Plan.combine .times s t) :=
  ⟨⟨.inl hop, ha.2, hb.2⟩, fun _ hs => scaled ⟨hs.2 ha.1 hb.1, hs.1⟩ ht⟩

section
variable (hc : (number c).isLinear = true) (ht : t.isLinear = true)
include hc ht

theorem oneMore : Stays (oneMore c t) :=
  multiple rfl ⟨rfl, rfl⟩ ⟨rfl, hc⟩ ht

theorem oneLess : Stays (oneLess c t) :=
  multiple rfl ⟨rfl, hc⟩ ⟨rfl, rfl⟩ ht

theorem oneMinus : Stays (oneMinus c t) :=
  multiple rfl ⟨rfl, rfl⟩ ⟨rfl, hc⟩ ht

theorem minusOneMinus : Stays (minusOneMinus c t) :=
  multiple rfl ⟨rfl, rfl⟩ ⟨rfl, hc⟩ ht

end

/-- Finite numbers can be compared. -/
theorem atMost (hc : c.isFinite = true) (hd : d.isFinite = true) :
    Respects linear (Plan.ofExcept ((c.atMost d).mapError .signal)) fun _ => True := by
  obtain ⟨x, hx⟩ := Decimal.exists_toRat? hc
  obtain ⟨y, hy⟩ := Decimal.exists_toRat? hd
  rw [Decimal.atMost_eq_decide hx hy]
  trivial

theorem less (hc : c.isFinite = true) (hd : d.isFinite = true) :
    Respects linear (Plan.ofExcept ((c.less d).mapError .signal)) fun _ => True := by
  obtain ⟨x, hx⟩ := Decimal.exists_toRat? hc
  obtain ⟨y, hy⟩ := Decimal.exists_toRat? hd
  rw [Decimal.less_eq_decide hx hy]
  trivial

theorem operands (hop : op.isSign = true) (h : (binary op a b).isLinear = true) :
    a.isLinear = true ∧ b.isLinear = true :=
  (isLinear_sign hop).mp h

theorem factors (h : (binary .times a b).isLinear = true) :
    a.isLinear = true ∧ b.isLinear = true :=
  Bool.and_eq_true_iff.mp (Bool.and_eq_true_iff.mp h).2

/-- An operation that is left as it is. -/
theorem plain (hop : op.isSign = true) (ha : a.isLinear = true) (hb : b.isLinear = true) :
    Stays (.done (binary op a b)) :=
  (isLinear_sign hop).mpr ⟨ha, hb⟩

/-! ### Sums -/

theorem signedSum (hc : c.isFinite = true) (ht : t.isLinear = true) : Stays (signedSum c t) := by
  refine (atMost (c := .zero) rfl hc).bind fun atMost _ => ?_
  cases atMost with
  | true => exact (kept c).bind fun _ h => sign rfl h.2 ht
  | false => exact (negated c).bind fun _ h => sign rfl ht h.2

theorem sumWithNumber (ht : t.isLinear = true) (hc : (number c).isLinear = true) :
    Stays (sumWithNumber t c) := by
  fun_cases Simplify.sumWithNumber t c with
  | case1 d x => exact ⟨trivial, fun _ h => signedSum h (operands rfl ht).2⟩
  | case2 x d => exact ⟨trivial, fun _ h => signedSum h (operands rfl ht).1⟩
  | case3 d x => exact (rounded _).bind fun _ h => sign rfl h.2 (operands rfl ht).2
  | case4 x d => exact ⟨trivial, fun _ h => signedSum h (operands rfl ht).1⟩
  | case5 => exact plain rfl ht hc

theorem sumWithVariable (ht : t.isLinear = true) (hx : x.isLinear = true) :
    Stays (sumWithVariable t x) := by
  fun_cases Simplify.sumWithVariable t x with
  | case1 p q => exact (twice hx).bind fun _ h => sign rfl h (operands rfl ht).2
  | case2 p q => exact (twice hx).bind fun _ h => sign rfl h (operands rfl ht).1
  | case3 => exact plain rfl ht hx
  | case4 p q => exact (twice hx).bind fun _ h => sign rfl h (operands rfl ht).2
  | case5 p q => exact done (operands rfl ht).1
  | case6 => exact plain rfl ht hx
  | case7 c y => exact oneMore (factors ht).1 hx
  | case8 => exact plain rfl ht hx
  | case9 y c => exact oneMore (factors ht).2 hx
  | case10 => exact plain rfl ht hx
  | case11 => exact plain rfl ht hx

theorem sumWithAtom (ht : t.isLinear = true) (hx : x.isLinear = true) :
    Stays (sumWithAtom t x) := by
  fun_cases Simplify.sumWithAtom t x with
  | case1 c => exact sumWithNumber ht hx
  | case2 => exact sumWithVariable ht hx

section
variable (hp : p.isLinear = true) (hq : q.isLinear = true) (hr : r.isLinear = true)
  (hs : s.isLinear = true)
include hp hq hr hs

theorem sumOfSums : Stays (sumOfSums p q r s) := by
  fun_cases Simplify.sumOfSums p q r s with
  | case1 => exact (twice hp).bind fun _ h => (sign rfl hq hs).bind fun _ => sign rfl h
  | case2 => exact (twice hq).bind fun _ h => (sign rfl hp hr).bind fun _ => sign rfl h
  | case3 => exact (twice hp).bind fun _ h => (sign rfl hq hr).bind fun _ => sign rfl h
  | case4 => exact (twice hq).bind fun _ h => (sign rfl hp hs).bind fun _ => sign rfl h
  | case5 => exact plain rfl (plain rfl hp hq) (plain rfl hr hs)

theorem sumWithDifference : Stays (sumWithDifference p q r s) := by
  fun_cases Simplify.sumWithDifference p q r s with
  | case1 => exact (twice hp).bind fun _ h => (sign rfl hq hs).bind fun _ => sign rfl h
  | case2 => exact sign rfl hq hr
  | case3 => exact (twice hq).bind fun _ h => (sign rfl hp hs).bind fun _ => sign rfl h
  | case4 => exact sign rfl hp hr
  | case5 => exact plain rfl (plain rfl hp hq) (plain rfl hr hs)

theorem sumOfDifferences : Stays (sumOfDifferences p q r s) := by
  fun_cases Simplify.sumOfDifferences p q r s with
  | case1 => exact (twice hp).bind fun _ h => (sign rfl hq hs).bind fun _ => sign rfl h
  | case2 => exact sign rfl hr hq
  | case3 => exact sign rfl hp hs
  | case4 => exact (sign rfl hp hr).bind fun _ h => (twice hq).bind fun _ => sign rfl h
  | case5 => exact plain rfl (plain rfl hp hq) (plain rfl hr hs)

theorem differenceOfSums : Stays (differenceOfSums p q r s) := by
  fun_cases Simplify.differenceOfSums p q r s with
  | case1 => exact sign rfl hq hs
  | case2 => exact sign rfl hq hr
  | case3 => exact sign rfl hp hs
  | case4 => exact sign rfl hp hr
  | case5 => exact plain rfl (plain rfl hp hq) (plain rfl hr hs)

theorem sumMinusDifference : Stays (sumMinusDifference p q r s) := by
  fun_cases Simplify.sumMinusDifference p q r s with
  | case1 => exact sign rfl hq hs
  | case2 => exact (twice hp).bind fun _ h => (sign rfl hq hr).bind fun _ => sign rfl h
  | case3 => exact sign rfl hp hs
  | case4 => exact (twice hq).bind fun _ h => (sign rfl hp hr).bind fun _ => sign rfl h
  | case5 => exact plain rfl (plain rfl hp hq) (plain rfl hr hs)

theorem differenceMinusSum : Stays (differenceMinusSum p q r s) := by
  fun_cases Simplify.differenceMinusSum p q r s with
  | case1 => exact (opposite hq).bind fun _ h => sign rfl h hs
  | case2 => exact (opposite hq).bind fun _ h => sign rfl h hr
  | case3 => exact (sign rfl hp hs).bind fun _ h => (twice hq).bind fun _ => sign rfl h
  | case4 => exact (sign rfl hp hr).bind fun _ h => (twice hq).bind fun _ => sign rfl h
  | case5 => exact plain rfl (plain rfl hp hq) (plain rfl hr hs)

theorem differenceOfDifferences : Stays (differenceOfDifferences p q r s) := by
  fun_cases Simplify.differenceOfDifferences p q r s with
  | case1 => exact sign rfl hs hq
  | case2 => exact (twice hp).bind fun _ h => (sign rfl hq hr).bind fun _ => sign rfl h
  | case3 => exact (sign rfl hp hs).bind fun _ h => (twice hq).bind fun _ => sign rfl h
  | case4 => exact sign rfl hp hr
  | case5 => exact plain rfl (plain rfl hp hq) (plain rfl hr hs)

end

theorem sumOfCompounds (ha : a.isLinear = true) (hb : b.isLinear = true) :
    Stays (sumOfCompounds a b) := by
  fun_cases Simplify.sumOfCompounds a b with
  | case1 p q r s =>
    exact sumOfSums (operands rfl ha).1 (operands rfl ha).2 (operands rfl hb).1 (operands rfl hb).2
  | case2 p q r s =>
    exact sumWithDifference (operands rfl ha).1 (operands rfl ha).2 (operands rfl hb).1
      (operands rfl hb).2
  | case3 p q r s =>
    exact sumWithDifference (operands rfl hb).1 (operands rfl hb).2 (operands rfl ha).1
      (operands rfl ha).2
  | case4 p q r s =>
    exact sumOfDifferences (operands rfl ha).1 (operands rfl ha).2 (operands rfl hb).1
      (operands rfl hb).2
  | case5 p q c x =>
    exact (oneMore (factors hb).1 (operands rfl ha).1).bind fun _ => sign rfl (operands rfl ha).2
  | case6 p q c x =>
    exact (oneMore (factors hb).1 (operands rfl ha).2).bind fun _ => sign rfl (operands rfl ha).1
  | case7 => exact plain rfl ha hb
  | case8 p q x c =>
    exact (oneMore (factors hb).2 (operands rfl ha).1).bind fun _ => sign rfl (operands rfl ha).2
  | case9 p q x c =>
    exact (oneMore (factors hb).2 (operands rfl ha).2).bind fun _ => sign rfl (operands rfl ha).1
  | case10 => exact plain rfl ha hb
  | case11 p q c x =>
    exact (oneMore (factors hb).1 (operands rfl ha).1).bind fun _ h =>
      sign rfl h (operands rfl ha).2
  | case12 p q c x =>
    exact (oneLess (factors hb).1 (operands rfl ha).2).bind fun _ h =>
      sign rfl h (operands rfl ha).1
  | case13 => exact plain rfl ha hb
  | case14 p q x c =>
    exact (oneMore (factors hb).2 (operands rfl ha).1).bind fun _ h =>
      sign rfl h (operands rfl ha).2
  | case15 p q x c =>
    exact (oneLess (factors hb).2 (operands rfl ha).2).bind fun _ h =>
      sign rfl h (operands rfl ha).1
  | case16 => exact plain rfl ha hb
  | case17 => exact plain rfl ha hb

theorem sum (ha : a.isLinear = true) (hb : b.isLinear = true) : Stays (sum a b) := by
  fun_cases Simplify.sum a b with
  | case1 c d => exact (rounded _).mono fun _ h => h.2
  | case2 => exact done hb
  | case3 => exact done ha
  | case4 => exact twice ha
  | case5 => exact sumOfCompounds ha hb
  | case6 => exact sumWithAtom ha hb
  | case7 => exact sumWithAtom hb ha
  | case8 => exact plain rfl ha hb

/-! ### Differences -/

theorem differenceWithNumber (ht : t.isLinear = true) (hc : (number c).isLinear = true) :
    Stays (differenceWithNumber t c) := by
  fun_cases Simplify.differenceWithNumber t c with
  | case1 d x => exact (rounded _).bind fun _ h => sign rfl h.2 (operands rfl ht).2
  | case2 x d => exact (rounded _).bind fun _ h => sign rfl h.2 (operands rfl ht).1
  | case3 d x => exact (rounded _).bind fun _ h => sign rfl h.2 (operands rfl ht).2
  | case4 x d => exact (rounded _).bind fun _ h => sign rfl (operands rfl ht).1 h.2
  | case5 => exact plain rfl ht hc

theorem differenceWithVariable (ht : t.isLinear = true) (hx : x.isLinear = true) :
    Stays (differenceWithVariable t x) := by
  fun_cases Simplify.differenceWithVariable t x with
  | case1 p q => exact done (operands rfl ht).2
  | case2 p q => exact done (operands rfl ht).1
  | case3 => exact plain rfl ht hx
  | case4 p q => exact opposite (operands rfl ht).2
  | case5 p q => exact (twice hx).bind fun _ => sign rfl (operands rfl ht).1
  | case6 => exact plain rfl ht hx
  | case7 c y => exact oneLess (factors ht).1 hx
  | case8 => exact plain rfl ht hx
  | case9 y c => exact oneLess (factors ht).2 hx
  | case10 => exact plain rfl ht hx
  | case11 => exact plain rfl ht hx

theorem differenceWithAtom (ht : t.isLinear = true) (hx : x.isLinear = true) :
    Stays (differenceWithAtom t x) := by
  fun_cases Simplify.differenceWithAtom t x with
  | case1 c => exact differenceWithNumber ht hx
  | case2 => exact differenceWithVariable ht hx

theorem differenceFromNumber (hc : (number c).isLinear = true) (ht : t.isLinear = true) :
    Stays (differenceFromNumber c t) := by
  fun_cases Simplify.differenceFromNumber c t with
  | case1 d x => exact (rounded _).bind fun _ h => sign rfl h.2 (operands rfl ht).2
  | case2 x d => exact (rounded _).bind fun _ h => sign rfl h.2 (operands rfl ht).1
  | case3 d x => exact (rounded _).bind fun _ h => sign rfl h.2 (operands rfl ht).2
  | case4 x d => exact (rounded _).bind fun _ h => sign rfl h.2 (operands rfl ht).1
  | case5 => exact plain rfl hc ht

theorem differenceFromVariable (hx : x.isLinear = true) (ht : t.isLinear = true) :
    Stays (differenceFromVariable x t) := by
  fun_cases Simplify.differenceFromVariable x t with
  | case1 p q => exact opposite (operands rfl ht).2
  | case2 p q => exact opposite (operands rfl ht).1
  | case3 => exact plain rfl hx ht
  | case4 p q => exact done (operands rfl ht).2
  | case5 p q => exact (twice hx).bind fun _ h => sign rfl h (operands rfl ht).1
  | case6 => exact plain rfl hx ht
  | case7 c y => exact oneMinus (factors ht).1 hx
  | case8 => exact plain rfl hx ht
  | case9 y c => exact oneMinus (factors ht).2 hx
  | case10 => exact plain rfl hx ht
  | case11 => exact plain rfl hx ht

theorem differenceFromAtom (hx : x.isLinear = true) (ht : t.isLinear = true) :
    Stays (differenceFromAtom x t) := by
  fun_cases Simplify.differenceFromAtom x t with
  | case1 c => exact differenceFromNumber hx ht
  | case2 => exact differenceFromVariable hx ht

theorem differenceOfCompounds (ha : a.isLinear = true) (hb : b.isLinear = true) :
    Stays (differenceOfCompounds a b) := by
  fun_cases Simplify.differenceOfCompounds a b with
  | case1 p q r s =>
    exact differenceOfSums (operands rfl ha).1 (operands rfl ha).2 (operands rfl hb).1
      (operands rfl hb).2
  | case2 p q r s =>
    exact sumMinusDifference (operands rfl ha).1 (operands rfl ha).2 (operands rfl hb).1
      (operands rfl hb).2
  | case3 p q r s =>
    exact differenceMinusSum (operands rfl ha).1 (operands rfl ha).2 (operands rfl hb).1
      (operands rfl hb).2
  | case4 p q r s =>
    exact differenceOfDifferences (operands rfl ha).1 (operands rfl ha).2 (operands rfl hb).1
      (operands rfl hb).2
  | case5 p q c x =>
    exact (oneMinus (factors hb).1 (operands rfl ha).1).bind fun _ h =>
      sign rfl h (operands rfl ha).2
  | case6 p q c x =>
    exact (oneMinus (factors hb).1 (operands rfl ha).2).bind fun _ h =>
      sign rfl h (operands rfl ha).1
  | case7 => exact plain rfl ha hb
  | case8 p q x c =>
    exact (oneMinus (factors hb).2 (operands rfl ha).1).bind fun _ h =>
      sign rfl h (operands rfl ha).2
  | case9 p q x c =>
    exact (oneMinus (factors hb).2 (operands rfl ha).2).bind fun _ h =>
      sign rfl h (operands rfl ha).1
  | case10 => exact plain rfl ha hb
  | case11 p q c x =>
    exact (oneMinus (factors hb).1 (operands rfl ha).1).bind fun _ h =>
      sign rfl h (operands rfl ha).2
  | case12 p q c x =>
    exact (minusOneMinus (factors hb).1 (operands rfl ha).2).bind fun _ h =>
      sign rfl h (operands rfl ha).1
  | case13 => exact plain rfl ha hb
  | case14 p q x c =>
    exact (oneMinus (factors hb).2 (operands rfl ha).1).bind fun _ h =>
      sign rfl h (operands rfl ha).2
  | case15 p q x c =>
    exact (minusOneMinus (factors hb).2 (operands rfl ha).2).bind fun _ h =>
      sign rfl h (operands rfl ha).1
  | case16 => exact plain rfl ha hb
  | case17 => exact plain rfl ha hb

theorem difference (ha : a.isLinear = true) (hb : b.isLinear = true) :
    Stays (difference a b) := by
  fun_cases Simplify.difference a b with
  | case1 c d => exact (rounded _).mono fun _ h => h.2
  | case2 => exact opposite hb
  | case3 => exact done ha
  | case4 => exact done rfl
  | case5 => exact differenceOfCompounds ha hb
  | case6 => exact differenceWithAtom ha hb
  | case7 => exact differenceFromAtom ha hb
  | case8 => exact plain rfl ha hb

/-! ### Products -/

theorem productWithNumber (ht : t.isLinear = true) (hc : (number c).isLinear = true) :
    Stays (productWithNumber t c) := by
  fun_cases Simplify.productWithNumber t c with
  | case1 p q =>
    obtain ⟨hp, hq⟩ := operands rfl ht
    refine (less hc rfl).bind fun less _ => ?_
    cases less with
    | true =>
      exact (scaled ⟨rfl, hc⟩ hp).bind fun _ h => (negated c).bind fun _ hneg =>
        (scaled hneg hq).bind fun _ => sign rfl h
    | false =>
      exact (scaled ⟨rfl, hc⟩ hp).bind fun _ h => (scaled ⟨rfl, hc⟩ hq).bind fun _ => sign rfl h
  | case2 p q =>
    obtain ⟨hp, hq⟩ := operands rfl ht
    refine (less (c := .zero) rfl hc).bind fun less _ => ?_
    cases less with
    | true =>
      exact (scaled ⟨rfl, hc⟩ hp).bind fun _ h => (scaled ⟨rfl, hc⟩ hq).bind fun _ => sign rfl h
    | false =>
      exact (scaled ⟨rfl, hc⟩ hp).bind fun _ h => (negated c).bind fun _ hneg =>
        (scaled hneg hq).bind fun _ => sign rfl h
  | case3 d x => exact (rounded _).bind fun _ h => scaled h (factors ht).2
  | case4 x d => exact (rounded _).bind fun _ h => scaled h (factors ht).1
  | case5 => exact Bool.and_eq_true_iff.mpr ⟨rfl, Bool.and_eq_true_iff.mpr ⟨hc, ht⟩⟩

theorem product (hnumber : a.isNumber = true) (ha : a.isLinear = true) (hb : b.isLinear = true) :
    Stays (product a b) := by
  have hatom := Tree.isCompound_of_isNumber hnumber
  fun_cases Simplify.product a b with
  | case1 c d => exact (rounded _).mono fun _ h => h.2
  | case2 => exact done rfl
  | case3 => exact done hb
  | case4 => exact done ha
  | case5 =>
    have hb' := (Loads.not_both ‹_›).1 hnumber
    rw [← Loads.isNumber_of_same ‹_›, hnumber] at hb'
    cases hb'
  | case6 | case7 => cases hatom.symm.trans ‹a.isCompound = true›
  | case8 =>
    obtain ⟨c, rfl⟩ := Tree.exists_of_isNumber hnumber
    exact productWithNumber hb ha
  | case9 =>
    obtain ⟨c, rfl⟩ := Tree.exists_of_isNumber hnumber
    exact Bool.and_eq_true_iff.mpr ⟨rfl, Bool.and_eq_true_iff.mpr ⟨ha, hb⟩⟩

theorem linearIn (h : IsLinearIn op a) (ha : a.isLinear = true) (hb : b.isLinear = true) :
    Stays (Simplify.rule op a b) := by
  rcases h with hop | ⟨rfl, hnumber⟩
  · cases op with
    | plus => exact sum ha hb
    | minus => exact difference ha hb
    | _ => cases hop
  · exact product hnumber ha hb

end Stays

/-- The operation of two numbers is a number. -/
theorem StaysNumber.rule (h : IsLinearIn op (number c)) :
    StaysNumber (Simplify.rule op (number c) (number d)) := by
  rcases h with hop | ⟨rfl, -⟩
  · cases op with
    | plus | minus => exact Stays.rounded _
    | _ => cases hop
  · exact Stays.rounded _

/-- The rules of linear operations keep to linear trees. -/
theorem Stays.rule (h : IsLinearIn op a) (ha : a.isLinear = true) (hb : b.isLinear = true) :
    Respects linear (Simplify.rule op a b) (linear.answer (.tree op a b)) := by
  by_cases hnumbers : a.isNumber = true ∧ b.isNumber = true
  · obtain ⟨c, rfl⟩ := Tree.exists_of_isNumber hnumbers.1
    obtain ⟨d, rfl⟩ := Tree.exists_of_isNumber hnumbers.2
    exact (StaysNumber.rule h).mono fun s hs => ⟨hs.2, fun _ _ => hs.1⟩
  · exact (linearIn h ha hb).mono fun s hs => ⟨hs, fun ha hb => absurd ⟨ha, hb⟩ hnumbers⟩

end Simplify

end Reckon
