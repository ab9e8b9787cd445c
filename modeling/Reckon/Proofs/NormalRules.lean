import Reckon.Proofs.Normal

/-!
# Rules and what operands inherit

A rule for operands with a property that operands inherit, such as being normal, builds a tree with
this property. It either asks for trees and builds on the answers, which have it, or yields a part
of an operand, or leaves the operation as it is; in the last case the rule would leave it so again.
-/

namespace Reckon.Simplify

open Reckon.Tree (number var unary binary)

variable {p q r s t x a b : Tree} {c d : Decimal}

theorem isZero_of_isCompound (h : t.isCompound = true) : ¬ t.isZero = true := by
  cases t with
  | number | var => cases h
  | unary | binary => simp [Tree.isZero]

theorem isOne_of_isCompound (h : t.isCompound = true) : ¬ t.isOne = true := by
  cases t with
  | number | var => cases h
  | unary | binary => simp [Tree.isOne]

theorem same_of_isCompound (ht : t.isCompound = true) (hx : x.isCompound = false) :
    ¬ t.same x = true ∧ ¬ x.same t = true := by
  cases t with
  | number | var => cases ht
  | unary | binary =>
    cases x with
    | number | var => simp [Tree.same]
    | unary | binary => cases hx

namespace Builds
open IsInherited (number_iff operand operands)
variable {P : Tree → Prop} [IsInherited P]

/-! ### Sums -/

omit [IsInherited P] in
theorem signedSum (hc : P (number c)) (ht : P t) : Builds P (signedSum c t) := by
  refine Ensures.bind (P := fun _ => True) (Ensures.ofExcept fun _ => trivial) fun atMost _ => ?_
  cases atMost with
  | true => exact (kept hc).bind fun _ h => combine h ht
  | false => exact (negated hc).bind fun _ h => combine ht h

theorem sumWithNumber (ht : P t) (hc : P (number c)) :
    Builds P (sumWithNumber t c) ∨ sumWithNumber t c = .done (binary .plus t (number c)) := by
  fun_cases Simplify.sumWithNumber t c with
  | case1 d x => exact .inl fun _ h => signedSum (h ⟨hc, (operands ht).1⟩) (operands ht).2
  | case2 x d => exact .inl fun _ h => signedSum (h ⟨hc, (operands ht).2⟩) (operands ht).1
  | case3 d x =>
    exact .inl ((rounded (c := .sum c d) ⟨hc, (operands ht).1⟩).bind fun _ h =>
      combine h (operands ht).2)
  | case4 x d => exact .inl fun _ h => signedSum (h ⟨hc, (operands ht).2⟩) (operands ht).1
  | case5 => exact .inr rfl

theorem sumWithVariable (ht : P t) (hx : P x) :
    Builds P (sumWithVariable t x) ∨ sumWithVariable t x = .done (binary .plus t x) := by
  fun_cases Simplify.sumWithVariable t x with
  | case1 p q => exact .inl ((twice hx).bind fun _ h => combine h (operands ht).2)
  | case2 p q => exact .inl ((twice hx).bind fun _ h => combine h (operands ht).1)
  | case3 => exact .inr rfl
  | case4 p q => exact .inl ((twice hx).bind fun _ h => combine h (operands ht).2)
  | case5 p q => exact .inl (operands ht).1
  | case6 => exact .inr rfl
  | case7 c y => exact .inl (oneMore (operands ht).1 hx)
  | case8 => exact .inr rfl
  | case9 y c => exact .inl (oneMore (operands ht).2 hx)
  | case10 => exact .inr rfl
  | case11 => exact .inr rfl

theorem sumWithAtom (ht : P t) (hx : P x) :
    Builds P (sumWithAtom t x) ∨ sumWithAtom t x = .done (binary .plus t x) := by
  fun_cases Simplify.sumWithAtom t x with
  | case1 c => exact sumWithNumber ht hx
  | case2 => exact sumWithVariable ht hx

section
variable (hp : P p) (hq : P q) (hr : P r) (hs : P s)
include hp hq hr hs

theorem sumOfSums : Builds P (sumOfSums p q r s) ∨
    sumOfSums p q r s = .done (binary .plus (binary .plus p q) (binary .plus r s)) := by
  fun_cases Simplify.sumOfSums p q r s with
  | case1 => exact .inl ((twice hp).bind fun _ h => (combine hq hs).bind fun _ => combine h)
  | case2 => exact .inl ((twice hq).bind fun _ h => (combine hp hr).bind fun _ => combine h)
  | case3 => exact .inl ((twice hp).bind fun _ h => (combine hq hr).bind fun _ => combine h)
  | case4 => exact .inl ((twice hq).bind fun _ h => (combine hp hs).bind fun _ => combine h)
  | case5 => exact .inr rfl

theorem sumWithDifference : Builds P (sumWithDifference p q r s) ∨
    sumWithDifference p q r s = .done (binary .plus (binary .plus p q) (binary .minus r s)) := by
  fun_cases Simplify.sumWithDifference p q r s with
  | case1 => exact .inl ((twice hp).bind fun _ h => (combine hq hs).bind fun _ => combine h)
  | case2 => exact .inl (combine hq hr)
  | case3 => exact .inl ((twice hq).bind fun _ h => (combine hp hs).bind fun _ => combine h)
  | case4 => exact .inl (combine hp hr)
  | case5 => exact .inr rfl

theorem sumOfDifferences : Builds P (sumOfDifferences p q r s) ∨
    sumOfDifferences p q r s = .done (binary .plus (binary .minus p q) (binary .minus r s)) := by
  fun_cases Simplify.sumOfDifferences p q r s with
  | case1 => exact .inl ((twice hp).bind fun _ h => (combine hq hs).bind fun _ => combine h)
  | case2 => exact .inl (combine hr hq)
  | case3 => exact .inl (combine hp hs)
  | case4 => exact .inl ((combine hp hr).bind fun _ h => (twice hq).bind fun _ => combine h)
  | case5 => exact .inr rfl

end

/-- A sum behind a difference is put in front of it. -/
theorem sumOfCompounds (ha : P a) (hb : P b) :
    Builds P (sumOfCompounds a b) ∨
      sumOfCompounds a b = .done (binary .plus a b) ∨
      ∃ p q r s, a = binary .minus r s ∧ b = binary .plus p q ∧
        sumOfCompounds a b = .done (binary .plus b a) := by
  fun_cases Simplify.sumOfCompounds a b with
  | case1 p q r s =>
    exact (sumOfSums (operands ha).1 (operands ha).2 (operands hb).1 (operands hb).2).imp_right .inl
  | case2 p q r s =>
    exact (sumWithDifference (operands ha).1 (operands ha).2 (operands hb).1
      (operands hb).2).imp_right .inl
  | case3 p q r s =>
    rcases sumWithDifference (operands hb).1 (operands hb).2 (operands ha).1 (operands ha).2
      with h | h
    · exact .inl h
    · exact .inr (.inr ⟨_, _, _, _, rfl, rfl, h⟩)
  | case4 p q r s =>
    exact (sumOfDifferences (operands ha).1 (operands ha).2 (operands hb).1
      (operands hb).2).imp_right .inl
  | case5 p q c x =>
    exact .inl ((oneMore (operands hb).1 (operands ha).1).bind fun _ h => combine (operands ha).2 h)
  | case6 p q c x =>
    exact .inl ((oneMore (operands hb).1 (operands ha).2).bind fun _ h => combine (operands ha).1 h)
  | case7 => exact .inr (.inl rfl)
  | case8 p q x c =>
    exact .inl ((oneMore (operands hb).2 (operands ha).1).bind fun _ h => combine (operands ha).2 h)
  | case9 p q x c =>
    exact .inl ((oneMore (operands hb).2 (operands ha).2).bind fun _ h => combine (operands ha).1 h)
  | case10 => exact .inr (.inl rfl)
  | case11 p q c x =>
    exact .inl ((oneMore (operands hb).1 (operands ha).1).bind fun _ h => combine h (operands ha).2)
  | case12 p q c x =>
    exact .inl ((oneLess (operands hb).1 (operands ha).2).bind fun _ h => combine h (operands ha).1)
  | case13 => exact .inr (.inl rfl)
  | case14 p q x c =>
    exact .inl ((oneMore (operands hb).2 (operands ha).1).bind fun _ h => combine h (operands ha).2)
  | case15 p q x c =>
    exact .inl ((oneLess (operands hb).2 (operands ha).2).bind fun _ h => combine h (operands ha).1)
  | case16 => exact .inr (.inl rfl)
  | case17 => exact .inr (.inl rfl)

theorem sum_of_atom (ht : t.isCompound = true) (hx : x.isCompound = false)
    (hzero : ¬ x.isZero = true) : Simplify.sum t x = Simplify.sumWithAtom t x := by
  have hcs : ∀ c d, t = number c → x = number d → False := by
    rintro c d rfl
    cases ht
  rw [Simplify.sum.eq_2 _ _ hcs, if_neg (isZero_of_isCompound ht), if_neg hzero,
    if_neg (same_of_isCompound ht hx).1, ht, hx]

theorem sum (ha : P a) (hb : P b) : Builds P (sum a b) := by
  have key : Builds P (Simplify.sum a b) ∨ Simplify.sum a b = .done (binary .plus a b) ∨
      Simplify.sum a b = .done (binary .plus b a) ∧
        Simplify.sum b a = .done (binary .plus b a) := by
    fun_cases Simplify.sum a b with
    | case1 x y => exact .inl (rounded (c := .sum x y) ⟨ha, hb⟩)
    | case2 => exact .inl hb
    | case3 => exact .inl ha
    | case4 => exact .inl (twice ha)
    | case5 =>
      rcases sumOfCompounds ha hb with h | h | ⟨p, q, r, s, rfl, rfl, h⟩
      · exact .inl h
      · exact .inr (.inl h)
      · exact .inr (.inr ⟨h, h⟩)
    | case6 => exact (sumWithAtom ha hb).imp_right .inl
    | case7 =>
      rcases sumWithAtom hb ha with h | h
      · exact .inl h
      · exact .inr (.inr ⟨h, by rw [sum_of_atom ‹_› ‹_› ‹_›, h]⟩)
    | case8 => exact .inr (.inl rfl)
  rcases key with h | h | ⟨h, h'⟩
  · exact h
  · exact @of_rule P .plus a b _ ha hb h
  · rw [h]
    exact IsInherited.binary hb ha (rests_of_rule h')

/-! ### Differences -/

theorem differenceWithNumber (ht : P t) (hc : P (number c)) :
    Builds P (differenceWithNumber t c) ∨
      differenceWithNumber t c = .done (binary .minus t (number c)) := by
  fun_cases Simplify.differenceWithNumber t c with
  | case1 d x =>
    exact .inl ((rounded (c := .difference d c) ⟨(operands ht).1, hc⟩).bind fun _ h =>
      combine h (operands ht).2)
  | case2 x d =>
    exact .inl ((rounded (c := .difference d c) ⟨(operands ht).2, hc⟩).bind fun _ h =>
      combine h (operands ht).1)
  | case3 d x =>
    exact .inl ((rounded (c := .difference d c) ⟨(operands ht).1, hc⟩).bind fun _ h =>
      combine h (operands ht).2)
  | case4 x d =>
    exact .inl ((rounded (c := .sum d c) ⟨(operands ht).2, hc⟩).bind fun _ h =>
      combine (operands ht).1 h)
  | case5 => exact .inr rfl

theorem differenceWithVariable (ht : P t) (hx : P x) :
    Builds P (differenceWithVariable t x) ∨
      differenceWithVariable t x = .done (binary .minus t x) := by
  fun_cases Simplify.differenceWithVariable t x with
  | case1 p q => exact .inl (operands ht).2
  | case2 p q => exact .inl (operands ht).1
  | case3 => exact .inr rfl
  | case4 p q => exact .inl (opposite (operands ht).2)
  | case5 p q => exact .inl ((twice hx).bind fun _ h => combine (operands ht).1 h)
  | case6 => exact .inr rfl
  | case7 c y => exact .inl (oneLess (operands ht).1 hx)
  | case8 => exact .inr rfl
  | case9 y c => exact .inl (oneLess (operands ht).2 hx)
  | case10 => exact .inr rfl
  | case11 => exact .inr rfl

theorem differenceWithAtom (ht : P t) (hx : P x) :
    Builds P (differenceWithAtom t x) ∨
      differenceWithAtom t x = .done (binary .minus t x) := by
  fun_cases Simplify.differenceWithAtom t x with
  | case1 c => exact differenceWithNumber ht hx
  | case2 => exact differenceWithVariable ht hx

theorem differenceFromNumber (hc : P (number c)) (ht : P t) :
    Builds P (differenceFromNumber c t) ∨
      differenceFromNumber c t = .done (binary .minus (number c) t) := by
  fun_cases Simplify.differenceFromNumber c t with
  | case1 d x =>
    exact .inl ((rounded (c := .difference c d) ⟨hc, (operands ht).1⟩).bind fun _ h =>
      combine h (operands ht).2)
  | case2 x d =>
    exact .inl ((rounded (c := .difference c d) ⟨hc, (operands ht).2⟩).bind fun _ h =>
      combine h (operands ht).1)
  | case3 d x =>
    exact .inl ((rounded (c := .difference c d) ⟨hc, (operands ht).1⟩).bind fun _ h =>
      combine h (operands ht).2)
  | case4 x d =>
    exact .inl ((rounded (c := .sum c d) ⟨hc, (operands ht).2⟩).bind fun _ h =>
      combine h (operands ht).1)
  | case5 => exact .inr rfl

theorem differenceFromVariable (hx : P x) (ht : P t) :
    Builds P (differenceFromVariable x t) ∨
      differenceFromVariable x t = .done (binary .minus x t) := by
  fun_cases Simplify.differenceFromVariable x t with
  | case1 p q => exact .inl (opposite (operands ht).2)
  | case2 p q => exact .inl (opposite (operands ht).1)
  | case3 => exact .inr rfl
  | case4 p q => exact .inl (operands ht).2
  | case5 p q => exact .inl ((twice hx).bind fun _ h => combine h (operands ht).1)
  | case6 => exact .inr rfl
  | case7 c y => exact .inl (oneMinus (operands ht).1 hx)
  | case8 => exact .inr rfl
  | case9 y c => exact .inl (oneMinus (operands ht).2 hx)
  | case10 => exact .inr rfl
  | case11 => exact .inr rfl

theorem differenceFromAtom (hx : P x) (ht : P t) :
    Builds P (differenceFromAtom x t) ∨
      differenceFromAtom x t = .done (binary .minus x t) := by
  fun_cases Simplify.differenceFromAtom x t with
  | case1 c => exact differenceFromNumber hx ht
  | case2 => exact differenceFromVariable hx ht

section
variable (hp : P p) (hq : P q) (hr : P r) (hs : P s)
include hp hq hr hs

omit [IsInherited P] in
theorem differenceOfSums : Builds P (differenceOfSums p q r s) ∨
    differenceOfSums p q r s = .done (binary .minus (binary .plus p q) (binary .plus r s)) := by
  fun_cases Simplify.differenceOfSums p q r s with
  | case1 => exact .inl (combine hq hs)
  | case2 => exact .inl (combine hq hr)
  | case3 => exact .inl (combine hp hs)
  | case4 => exact .inl (combine hp hr)
  | case5 => exact .inr rfl

theorem sumMinusDifference : Builds P (sumMinusDifference p q r s) ∨
    sumMinusDifference p q r s = .done (binary .minus (binary .plus p q) (binary .minus r s)) := by
  fun_cases Simplify.sumMinusDifference p q r s with
  | case1 => exact .inl (combine hq hs)
  | case2 => exact .inl ((twice hp).bind fun _ h => (combine hq hr).bind fun _ => combine h)
  | case3 => exact .inl (combine hp hs)
  | case4 => exact .inl ((twice hq).bind fun _ h => (combine hp hr).bind fun _ => combine h)
  | case5 => exact .inr rfl

theorem differenceMinusSum : Builds P (differenceMinusSum p q r s) ∨
    differenceMinusSum p q r s = .done (binary .minus (binary .minus p q) (binary .plus r s)) := by
  fun_cases Simplify.differenceMinusSum p q r s with
  | case1 => exact .inl ((opposite hq).bind fun _ h => combine h hs)
  | case2 => exact .inl ((opposite hq).bind fun _ h => combine h hr)
  | case3 => exact .inl ((combine hp hs).bind fun _ h => (twice hq).bind fun _ => combine h)
  | case4 => exact .inl ((combine hp hr).bind fun _ h => (twice hq).bind fun _ => combine h)
  | case5 => exact .inr rfl

theorem differenceOfDifferences : Builds P (differenceOfDifferences p q r s) ∨
    differenceOfDifferences p q r s =
      .done (binary .minus (binary .minus p q) (binary .minus r s)) := by
  fun_cases Simplify.differenceOfDifferences p q r s with
  | case1 => exact .inl (combine hs hq)
  | case2 => exact .inl ((twice hp).bind fun _ h => (combine hq hr).bind fun _ => combine h)
  | case3 => exact .inl ((combine hp hs).bind fun _ h => (twice hq).bind fun _ => combine h)
  | case4 => exact .inl (combine hp hr)
  | case5 => exact .inr rfl

end

theorem differenceOfCompounds (ha : P a) (hb : P b) :
    Builds P (differenceOfCompounds a b) ∨
      differenceOfCompounds a b = .done (binary .minus a b) := by
  fun_cases Simplify.differenceOfCompounds a b with
  | case1 p q r s =>
    exact differenceOfSums (operands ha).1 (operands ha).2 (operands hb).1 (operands hb).2
  | case2 p q r s =>
    exact sumMinusDifference (operands ha).1 (operands ha).2 (operands hb).1 (operands hb).2
  | case3 p q r s =>
    exact differenceMinusSum (operands ha).1 (operands ha).2 (operands hb).1 (operands hb).2
  | case4 p q r s =>
    exact differenceOfDifferences (operands ha).1 (operands ha).2 (operands hb).1 (operands hb).2
  | case5 p q c x =>
    exact .inl ((oneMinus (operands hb).1 (operands ha).1).bind fun _ h =>
      combine h (operands ha).2)
  | case6 p q c x =>
    exact .inl ((oneMinus (operands hb).1 (operands ha).2).bind fun _ h =>
      combine h (operands ha).1)
  | case7 => exact .inr rfl
  | case8 p q x c =>
    exact .inl ((oneMinus (operands hb).2 (operands ha).1).bind fun _ h =>
      combine h (operands ha).2)
  | case9 p q x c =>
    exact .inl ((oneMinus (operands hb).2 (operands ha).2).bind fun _ h =>
      combine h (operands ha).1)
  | case10 => exact .inr rfl
  | case11 p q c x =>
    exact .inl ((oneMinus (operands hb).1 (operands ha).1).bind fun _ h =>
      combine h (operands ha).2)
  | case12 p q c x =>
    exact .inl ((minusOneMinus (operands hb).1 (operands ha).2).bind fun _ h =>
      combine h (operands ha).1)
  | case13 => exact .inr rfl
  | case14 p q x c =>
    exact .inl ((oneMinus (operands hb).2 (operands ha).1).bind fun _ h =>
      combine h (operands ha).2)
  | case15 p q x c =>
    exact .inl ((minusOneMinus (operands hb).2 (operands ha).2).bind fun _ h =>
      combine h (operands ha).1)
  | case16 => exact .inr rfl
  | case17 => exact .inr rfl

theorem difference (ha : P a) (hb : P b) : Builds P (difference a b) := by
  have key : Builds P (Simplify.difference a b) ∨
      Simplify.difference a b = .done (binary .minus a b) := by
    fun_cases Simplify.difference a b with
    | case1 x y => exact .inl (rounded (c := .difference x y) ⟨ha, hb⟩)
    | case2 => exact .inl (opposite hb)
    | case3 => exact .inl ha
    | case4 => exact .inl zero
    | case5 => exact differenceOfCompounds ha hb
    | case6 => exact differenceWithAtom ha hb
    | case7 => exact differenceFromAtom ha hb
    | case8 => exact .inr rfl
  exact key.elim id (@of_rule P .minus a b _ ha hb)

/-! ### Products -/

theorem productWithNumber (ht : P t) (hc : P (number c)) :
    Builds P (productWithNumber t c) ∨
      productWithNumber t c = .done (binary .times (number c) t) := by
  fun_cases Simplify.productWithNumber t c with
  | case1 p q =>
    refine .inl (Ensures.bind (P := fun _ => True) (.ofExcept fun _ => trivial) fun less _ => ?_)
    cases less with
    | true =>
      exact (combine hc (operands ht).1).bind fun _ h => (negated hc).bind fun _ h' =>
        (combine h' (operands ht).2).bind fun _ h'' => combine h h''
    | false =>
      exact (combine hc (operands ht).1).bind fun _ h => (combine hc (operands ht).2).bind fun _ =>
        combine h
  | case2 p q =>
    refine .inl (Ensures.bind (P := fun _ => True) (.ofExcept fun _ => trivial) fun less _ => ?_)
    cases less with
    | true =>
      exact (combine hc (operands ht).1).bind fun _ h => (combine hc (operands ht).2).bind fun _ =>
        combine h
    | false =>
      exact (combine hc (operands ht).1).bind fun _ h => (negated hc).bind fun _ h' =>
        (combine h' (operands ht).2).bind fun _ h'' => combine h h''
  | case3 d x =>
    exact .inl ((rounded (c := .product c d) ⟨hc, (operands ht).1⟩).bind fun _ h =>
      combine h (operands ht).2)
  | case4 x d =>
    exact .inl ((rounded (c := .product c d) ⟨hc, (operands ht).2⟩).bind fun _ h =>
      combine h (operands ht).1)
  | case5 => exact .inr rfl

theorem productWithVariable (ht : P t) (hx : P x) :
    Builds P (productWithVariable t x) ∨
      productWithVariable t x = .done (binary .times x t) := by
  fun_cases Simplify.productWithVariable t x with
  | case1 p q =>
    exact .inl ((combine hx (operands ht).1).bind fun _ h =>
      (combine hx (operands ht).2).bind fun _ => combine h)
  | case2 p q =>
    exact .inl ((combine hx (operands ht).1).bind fun _ h =>
      (combine hx (operands ht).2).bind fun _ => combine h)
  | case3 y n =>
    exact .inl ((combine one (operands ht).2).bind fun _ h => combine hx h)
  | case4 => exact .inr rfl
  | case5 => exact .inr rfl

theorem productWithAtom (ht : P t) (hx : P x) :
    Builds P (productWithAtom t x) ∨ productWithAtom t x = .done (binary .times x t) := by
  fun_cases Simplify.productWithAtom t x with
  | case1 c => exact productWithNumber ht hx
  | case2 => exact productWithVariable ht hx

theorem differenceOfSquares (hp : P p) (hq : P q) :
    Builds P (differenceOfSquares p q) :=
  (square hp).bind fun _ h => (square hq).bind fun _ => combine h

theorem productOfCompounds (ha : P a) (hb : P b) :
    Builds P (productOfCompounds a b) ∨
      productOfCompounds a b = .done (binary .times a b) := by
  fun_cases Simplify.productOfCompounds a b with
  | case1 p q r s => exact .inl (differenceOfSquares (operands ha).1 (operands ha).2)
  | case2 p q r s => exact .inl (differenceOfSquares (operands ha).2 (operands ha).1)
  | case3 => exact .inr rfl
  | case4 p q r s => exact .inl (differenceOfSquares (operands ha).1 (operands ha).2)
  | case5 => exact .inr rfl
  | case6 => exact .inr rfl

theorem product_of_atom (ht : t.isCompound = true) (hx : x.isCompound = false)
    (hzero : ¬ (x.isZero || t.isZero) = true) (hone : ¬ x.isOne = true) :
    Simplify.product x t = Simplify.productWithAtom t x := by
  have hcs : ∀ c d, x = number c → t = number d → False := by
    rintro c d - rfl
    cases ht
  rw [Simplify.product.eq_2 _ _ hcs, if_neg hzero, if_neg hone,
    if_neg (isOne_of_isCompound ht), if_neg (same_of_isCompound ht hx).2, ht, hx]

theorem product (ha : P a) (hb : P b) : Builds P (product a b) := by
  have key : Builds P (Simplify.product a b) ∨
      Simplify.product a b = .done (binary .times a b) ∨
      Simplify.product a b = .done (binary .times b a) ∧
        Simplify.product b a = .done (binary .times b a) := by
    fun_cases Simplify.product a b with
    | case1 x y => exact .inl (rounded (c := .product x y) ⟨ha, hb⟩)
    | case2 => exact .inl zero
    | case3 => exact .inl hb
    | case4 => exact .inl ha
    | case5 => exact .inl (square ha)
    | case6 => exact (productOfCompounds ha hb).imp_right .inl
    | case7 =>
      rcases productWithAtom ha hb with h | h
      · exact .inl h
      · exact .inr (.inr ⟨h, by rw [product_of_atom ‹_› ‹_› (by rwa [Bool.or_comm]) ‹_›, h]⟩)
    | case8 => exact (productWithAtom hb ha).imp_right .inl
    | case9 => exact .inr (.inl rfl)
  rcases key with h | h | ⟨h, h'⟩
  · exact h
  · exact @of_rule P .times a b _ ha hb h
  · rw [h]
    exact IsInherited.binary hb ha (rests_of_rule h')

/-! ### Quotients and powers -/

/-- A quotient that is no integer is left as it is. -/
theorem quotientOfNumbers (hc : P (number c)) (hd : P (number d)) :
    Builds P (quotientOfNumbers c d) := by
  have hrule : rule .div (number c) (number d) = Simplify.quotientOfNumbers c d := rfl
  by_cases hzero : d.isZero = true
  · rw [← hrule]
    refine @of_rule P .div (number c) (number d) _ hc hd ?_
    rw [hrule, Simplify.quotientOfNumbers, if_pos hzero]
    rfl
  · rw [Simplify.quotientOfNumbers, if_neg hzero]
    rintro (_ | q) ⟨hresult, hq⟩
    · refine IsInherited.binary hc hd fun combine => ?_
      rw [hrule, Simplify.quotientOfNumbers, if_neg hzero]
      exact bind_eq_ok_iff.mpr ⟨_, hresult, rfl⟩
    · exact kept (hq q rfl)

theorem quotientOfSum (hp : P p) (hq : P q) (hb : P b) :
    Builds P (quotientOfSum p q b) ∨
      quotientOfSum p q b = .done (binary .div (binary .plus p q) b) := by
  fun_cases Simplify.quotientOfSum p q b with
  | case1 => exact .inl ((combine hq hb).bind fun _ => combine one)
  | case2 => exact .inl ((combine hp hb).bind fun _ h => combine h one)
  | case3 => exact .inr rfl

theorem quotientOfDifference (hp : P p) (hq : P q) (hb : P b) :
    Builds P (quotientOfDifference p q b) ∨
      quotientOfDifference p q b = .done (binary .div (binary .minus p q) b) := by
  fun_cases Simplify.quotientOfDifference p q b with
  | case1 => exact .inl ((combine hq hb).bind fun _ => combine one)
  | case2 => exact .inl ((combine hp hb).bind fun _ h => combine h one)
  | case3 => exact .inr rfl

omit [IsInherited P] in
theorem quotientOfProduct (hp : P p) (hq : P q) :
    Builds P (quotientOfProduct p q b) ∨
      quotientOfProduct p q b = .done (binary .div (binary .times p q) b) := by
  fun_cases Simplify.quotientOfProduct p q b with
  | case1 => exact .inl hq
  | case2 => exact .inl hp
  | case3 => exact .inr rfl

theorem quotientOfQuotient (hp : P p) (hq : P q) (hb : P b) :
    Builds P (quotientOfQuotient p q b) ∨
      quotientOfQuotient p q b = .done (binary .div (binary .div p q) b) := by
  fun_cases Simplify.quotientOfQuotient p q b with
  | case1 r s =>
    exact .inl ((combine hp (operands hb).2).bind fun _ h =>
      (combine hq (operands hb).1).bind fun _ => combine h)
  | case2 => exact .inr rfl
  | case3 => exact .inl ((combine hb hq).bind fun _ => combine hp)

theorem quotient (ha : P a) (hb : P b) : Builds P (quotient a b) := by
  have key : Builds P (Simplify.quotient a b) ∨
      Simplify.quotient a b = .done (binary .div a b) := by
    fun_cases Simplify.quotient a b with
    | case1 x y => exact .inl (quotientOfNumbers ha hb)
    | case2 => exact .inl zero
    | case3 => exact .inl ha
    | case4 => exact .inl one
    | case5 p q => exact quotientOfSum (operands ha).1 (operands ha).2 hb
    | case6 p q => exact quotientOfDifference (operands ha).1 (operands ha).2 hb
    | case7 p q => exact quotientOfProduct (operands ha).1 (operands ha).2
    | case8 p q => exact quotientOfQuotient (operands ha).1 (operands ha).2 hb
    | case9 => exact .inr rfl
  exact key.elim id (@of_rule P .div a b _ ha hb)

/-- A power that is no integer is left as it is. -/
theorem powerOfNumbers (hc : P (number c)) (hd : P (number d))
    (hrule : Simplify.power (number c) (number d) = Simplify.powerOfNumbers c d) :
    Builds P (powerOfNumbers c d) := by
  rintro (_ | v) ⟨hresult, hv⟩
  · refine IsInherited.binary hc hd fun combine => ?_
    rw [rule, hrule]
    exact bind_eq_ok_iff.mpr ⟨_, hresult, rfl⟩
  · exact kept (hv v rfl)

theorem power (ha : P a) (hb : P b) : Builds P (power a b) := by
  have key : Builds P (Simplify.power a b) ∨
      Simplify.power a b = .done (binary .power a b) := by
    fun_cases Simplify.power a b with
    | case1 => exact .inl one
    | case2 => exact .inl ha
    | case3 => exact .inl (powerOfNumbers ha hb (by rw [Simplify.power, if_neg ‹_›, if_neg ‹_›]))
    | case4 => exact .inl one
    | case5 => exact .inl ha
    | case6 p x y =>
      exact .inl ((combine (a := number x) (operands ha).2 hb).bind fun _ =>
        combine (operands ha).1)
    | case7 => exact .inr rfl
  exact key.elim id (@of_rule P .power a b _ ha hb)

theorem rule (op : Binary) (ha : P a) (hb : P b) : Builds P (rule op a b) := by
  cases op with
  | plus => exact sum ha hb
  | minus => exact difference ha hb
  | times => exact product ha hb
  | div => exact quotient ha hb
  | power => exact power ha hb
  | _ => exact of_rule ha hb rfl

/-! ### Functions -/

theorem unaryRests_of_rule {op : Unary} (h : Simplify.unaryRule op a = .done (unary op a)) :
    UnaryRests op a := fun combine => by
  rw [h]
  rfl

/-- A root that is no integer is left as it is. -/
theorem sqrt (ha : P a) : Builds P (sqrt a) := by
  fun_cases Simplify.sqrt a with
  | case1 c =>
    cases hle : Decimal.zero.atMost c with
    | error f => trivial
    | ok positive =>
      cases positive with
      | false =>
        refine IsInherited.unary rfl ha fun combine => ?_
        rw [unaryRule, Simplify.sqrt, hle]
        rfl
      | true =>
        rintro (_ | root) ⟨hresult, hroot⟩
        · refine IsInherited.unary rfl ha fun combine => ?_
          rw [unaryRule, Simplify.sqrt, hle]
          exact bind_eq_ok_iff.mpr ⟨_, hresult, rfl⟩
        · exact kept (hroot root rfl)
  | case2 p n =>
    rintro (_ | half) ⟨hresult, hhalf⟩
    · refine IsInherited.unary rfl ha fun combine => ?_
      rw [unaryRule, Simplify.sqrt]
      exact bind_eq_ok_iff.mpr ⟨_, hresult, rfl⟩
    · exact (kept (hhalf half rfl)).bind fun _ => combine (operands ha).1
  | case3 => exact IsInherited.unary rfl ha (unaryRests_of_rule (Simplify.sqrt.eq_3 _ ‹_› ‹_›))

theorem oneMinusSquare (ht : P t) : Builds P (oneMinusSquare t) :=
  (square ht).bind fun _ => combine one

theorem sin (ha : P a) : Builds P (sin a) := by
  fun_cases Simplify.sin a with
  | case1 t => exact operand ha
  | case2 t => exact (oneMinusSquare (operand ha)).bind fun _ => sqrt
  | case3 => exact IsInherited.unary rfl ha (unaryRests_of_rule (Simplify.sin.eq_3 _ ‹_› ‹_›))

theorem cos (ha : P a) : Builds P (cos a) := by
  fun_cases Simplify.cos a with
  | case1 t => exact operand ha
  | case2 t => exact (oneMinusSquare (operand ha)).bind fun _ => sqrt
  | case3 => exact IsInherited.unary rfl ha (unaryRests_of_rule (Simplify.cos.eq_3 _ ‹_› ‹_›))

theorem tan (ha : P a) : Builds P (tan a) := by
  fun_cases Simplify.tan a with
  | case1 t => exact operand ha
  | case2 t => exact combine one (operand ha)
  | case3 => exact IsInherited.unary rfl ha (unaryRests_of_rule (Simplify.tan.eq_3 _ ‹_› ‹_›))

theorem cotan (ha : P a) : Builds P (cotan a) := by
  fun_cases Simplify.cotan a with
  | case1 t => exact operand ha
  | case2 => exact IsInherited.unary rfl ha (unaryRests_of_rule (Simplify.cotan.eq_2 _ ‹_›))

theorem acotan (ha : P a) : Builds P (acotan a) := by
  fun_cases Simplify.acotan a with
  | case1 t => exact operand ha
  | case2 => exact IsInherited.unary rfl ha (unaryRests_of_rule (Simplify.acotan.eq_2 _ ‹_›))

theorem ln (ha : P a) : Builds P (ln a) := by
  fun_cases Simplify.ln a with
  | case1 t => exact operand ha
  | case2 => exact IsInherited.unary rfl ha (unaryRests_of_rule (Simplify.ln.eq_2 _ ‹_›))

theorem exp (ha : P a) : Builds P (exp a) := by
  fun_cases Simplify.exp a with
  | case1 t => exact operand ha
  | case2 => exact one
  | case3 =>
    exact IsInherited.unary rfl ha
      (unaryRests_of_rule ((Simplify.exp.eq_2 _ ‹_›).trans (if_neg ‹_›)))

theorem unaryRule (op : Unary) (ha : a.IsNormal) : Builds Tree.IsNormal (unaryRule op a) := by
  cases op with
  | sqrt => exact sqrt ha
  | sin => exact sin ha
  | cos => exact cos ha
  | tan => exact tan ha
  | cotan => exact cotan ha
  | acotan => exact acotan ha
  | ln => exact ln ha
  | exp => exact exp ha
  | _ => exact ⟨ha, unaryRests_of_rule rfl⟩

end Builds

end Reckon.Simplify
