import Mathlib.Algebra.Group.Units.Basic
import Mathlib.Tactic.LinearCombination
import Reckon.Proofs.Gives

/-!
# Rules for products and quotients

Every rule builds a tree with the meaning of the operation that it is for. A multiple is made with
sums and multiples alone (`productOfNumber`). Divisors are units, so they may be cancelled, and what
divides a unit is a unit.
-/

namespace Reckon.Simplify

open Reckon.Tree (number var unary binary)

variable {K : Type} [CommRing K] [Algebra ℚ K] {E : Expectation} {D : Tree → K → Prop}
  {p q r s t x : Tree} {a b c d u v w : K}

namespace Gives

/-! ### Multiples -/

section
variable [KeepsSums E D]

theorem productWithNumber {e : Decimal} (ht : D t u) (he : D (number e) v) :
    Gives E D (productWithNumber t e) (v * u) := by
  obtain ⟨z, hz, rfl⟩ := IsMeaning.number_iff.mp he
  unfold Simplify.productWithNumber
  split
  · obtain ⟨a, b, hp, hq, rfl⟩ := IsMeaning.parts ht
    refine Ensures.bind (P := fun _ => True) (Ensures.ofExcept fun _ => trivial) fun less _ => ?_
    cases less with
    | true =>
      refine (scaled he hp).bind fun _ h => bind_isNumber (ensures_negated D hz) fun _ hc =>
        (scaled (IsMeaning.number hc) hq).bind fun _ h' => (minus h h').of_eq ?_
      rw [map_neg]
      ring
    | false =>
      exact (scaled he hp).bind fun _ h => (scaled he hq).bind fun _ h' =>
        (plus h h').of_eq (by ring)
  · obtain ⟨a, b, hp, hq, rfl⟩ := IsMeaning.parts ht
    refine Ensures.bind (P := fun _ => True) (Ensures.ofExcept fun _ => trivial) fun less _ => ?_
    cases less with
    | true =>
      exact (scaled he hp).bind fun _ h => (scaled he hq).bind fun _ h' =>
        (minus h h').of_eq (by ring)
    | false =>
      refine (scaled he hp).bind fun _ h => bind_isNumber (ensures_negated D hz) fun _ hc =>
        (scaled (IsMeaning.number hc) hq).bind fun _ h' => (plus h h').of_eq ?_
      rw [map_neg]
      ring
  · obtain ⟨_, w, hn, hx, rfl⟩ := IsMeaning.parts ht
    obtain ⟨z', hz', rfl⟩ := IsMeaning.number_iff.mp hn
    refine (scaled_of_isNumber (ensures_rounded D (value?_product hz hz')) hx).of_eq ?_
    rw [map_mul]
    ring
  · obtain ⟨w, _, hx, hn, rfl⟩ := IsMeaning.parts ht
    obtain ⟨z', hz', rfl⟩ := IsMeaning.number_iff.mp hn
    refine (scaled_of_isNumber (ensures_rounded D (value?_product hz hz')) hx).of_eq ?_
    rw [map_mul]
    ring
  · exact IsMeaning.times he ht

/-- A number is not the same as another tree, so no square arises. -/
theorem productOfNumber {e : Decimal} (he : D (number e) v) (ht : D t u) :
    Gives E D (Simplify.product (number e) t) (v * u) := by
  cases t with
  | number x =>
    obtain ⟨z, hz, rfl⟩ := IsMeaning.number_iff.mp he
    obtain ⟨z', hz', rfl⟩ := IsMeaning.number_iff.mp ht
    exact (rounded (value?_product hz hz')).of_eq (map_mul ..)
  | var | unary | binary =>
    rw [Simplify.product.eq_2 _ _ fun _ _ _ h => by cases h]
    split
    · rename_i h
      rcases Bool.or_eq_true_iff.mp h with h | h
      · exact IsMeaning.of_eq IsMeaning.zero (by rw [IsMeaning.eq_zero he h, zero_mul])
      · cases h
    split
    · rename_i h
      exact IsMeaning.of_eq ht (by rw [IsMeaning.eq_one he h, one_mul])
    split
    · rename_i h
      cases h
    split
    · rename_i h
      cases h
    · exact productWithNumber ht he

end

section
variable [KeepsProducts E D]

/-! ### Products -/

theorem productWithVariable (hatom : x.isCompound = false) (ht : D t u) (hx : D x v) :
    Gives E D (productWithVariable t x) (v * u) := by
  have hplain : D (binary .times x t) (v * u) := IsMeaning.times hx ht
  unfold Simplify.productWithVariable
  split
  · obtain ⟨a, b, hp, hq, rfl⟩ := IsMeaning.parts ht
    exact (times hx hp).bind fun _ h => (times hx hq).bind fun _ h' => (plus h h').of_eq (by ring)
  · obtain ⟨a, b, hp, hq, rfl⟩ := IsMeaning.parts ht
    exact (times hx hp).bind fun _ h => (times hx hq).bind fun _ h' => (minus h h').of_eq (by ring)
  · split
    · rename_i h
      exact KeepsProducts.times_power hatom h hx ht
    · exact hplain
  · exact hplain

theorem productWithAtom (hatom : x.isCompound = false) (ht : D t u) (hx : D x v) :
    Gives E D (productWithAtom t x) (v * u) := by
  unfold Simplify.productWithAtom
  split
  · exact productWithNumber ht hx
  · exact productWithVariable hatom ht hx

theorem differenceOfSquares (hp : D p a) (hq : D q b) :
    Gives E D (differenceOfSquares p q) (a * a - b * b) :=
  (square hp).bind fun _ h => (square hq).bind fun _ h' => minus h h'

theorem productOfCompounds (hp : D p u) (hq : D q v) :
    Gives E D (productOfCompounds p q) (u * v) := by
  have hplain : D (binary .times p q) (u * v) := IsMeaning.times hp hq
  unfold Simplify.productOfCompounds
  split
  · obtain ⟨a, b, ha, hb, rfl⟩ := IsMeaning.parts hp
    obtain ⟨c, d, hc, hd, rfl⟩ := IsMeaning.parts hq
    split
    · rename_i h
      rw [Bool.and_eq_true] at h
      obtain rfl := IsMeaning.eq_of_same h.1 ha hc
      obtain rfl := IsMeaning.eq_of_same h.2 hb hd
      exact (differenceOfSquares ha hb).of_eq (by ring)
    split
    · rename_i h
      rw [Bool.and_eq_true] at h
      obtain rfl := IsMeaning.eq_of_same h.1 ha hd
      obtain rfl := IsMeaning.eq_of_same h.2 hb hc
      exact (differenceOfSquares hb ha).of_eq (by ring)
    · exact hplain
  · obtain ⟨a, b, ha, hb, rfl⟩ := IsMeaning.parts hp
    obtain ⟨c, d, hc, hd, rfl⟩ := IsMeaning.parts hq
    split
    · rename_i h
      rw [Bool.or_eq_true, Bool.and_eq_true, Bool.and_eq_true] at h
      rcases h with ⟨h, h'⟩ | ⟨h, h'⟩
      · obtain rfl := IsMeaning.eq_of_same h ha hc
        obtain rfl := IsMeaning.eq_of_same h' hb hd
        exact (differenceOfSquares ha hb).of_eq (by ring)
      · obtain rfl := IsMeaning.eq_of_same h ha hd
        obtain rfl := IsMeaning.eq_of_same h' hb hc
        exact (differenceOfSquares ha hb).of_eq (by ring)
    · exact hplain
  · exact hplain

theorem product (hp : D p u) (hq : D q v) : Gives E D (product p q) (u * v) := by
  unfold Simplify.product
  split
  · obtain ⟨x, hx, rfl⟩ := IsMeaning.number_iff.mp hp
    obtain ⟨y, hy, rfl⟩ := IsMeaning.number_iff.mp hq
    exact (rounded (value?_product hx hy)).of_eq (map_mul ..)
  split
  · rename_i h
    rw [Bool.or_eq_true] at h
    rcases h with h | h
    · exact IsMeaning.of_eq (IsMeaning.zero (D := D)) (by rw [IsMeaning.eq_zero hp h, zero_mul])
    · exact IsMeaning.of_eq (IsMeaning.zero (D := D)) (by rw [IsMeaning.eq_zero hq h, mul_zero])
  split
  · rename_i h
    exact IsMeaning.of_eq hq (by rw [IsMeaning.eq_one hp h, one_mul])
  split
  · rename_i h
    exact IsMeaning.of_eq hp (by rw [IsMeaning.eq_one hq h, mul_one])
  split
  · rename_i h
    obtain rfl := IsMeaning.eq_of_same h hp hq
    exact square hp
  split
  · exact productOfCompounds hp hq
  · exact (productWithAtom ‹_› hp hq).of_eq (by ring)
  · exact productWithAtom ‹_› hq hp
  · exact IsMeaning.times hp hq

/-! ### Quotients -/

theorem quotientOfNumbers {x y : Decimal} (h : D (binary .div (number x) (number y)) w) :
    Gives E D (quotientOfNumbers x y) w := by
  unfold Simplify.quotientOfNumbers
  split
  · exact h
  · intro r hr
    cases r with
    | none => exact h
    | some z =>
      obtain ⟨m, hm, hz⟩ := KeepsProducts.quotient D hr z rfl
      obtain ⟨u, v, hx, hy, hv, hw⟩ := IsMeaning.parts h
      obtain ⟨x', hx', rfl⟩ := IsMeaning.number_iff.mp hx
      obtain ⟨y', hy', rfl⟩ := IsMeaning.number_iff.mp hy
      rw [IntegerComputation.value?, hx', hy'] at hm
      simp only [Option.bind_eq_bind, Option.bind_some] at hm
      split at hm
      · cases hm
      · rename_i hne
        cases hm
        refine (kept hz).of_eq (hv.mul_right_cancel ?_)
        rw [← map_mul, div_mul_cancel₀ _ hne, hw]

theorem quotientOfSum (hp : D p a) (hq : D q b) (ht : D t v) (hv : IsUnit v)
    (hw : w * v = a + b) : Gives E D (quotientOfSum p q t) w := by
  obtain ⟨y, hy⟩ := hv.exists_left_inv
  have hdiv : ∀ {q : Tree} {b : K}, D q b → Gives E D (Plan.combine .div q t) (b * y) := by
    intro q b hq
    exact div (IsMeaning.of_eq hq (by rw [mul_assoc, hy, mul_one])) ht hv
  unfold Simplify.quotientOfSum
  split
  · rename_i h
    obtain rfl := IsMeaning.eq_of_same h ht hp
    refine (hdiv hq).bind fun _ h => (plus IsMeaning.one h).of_eq (hv.mul_right_cancel ?_)
    rw [hw]
    linear_combination b * hy
  split
  · rename_i h
    obtain rfl := IsMeaning.eq_of_same h ht hq
    refine (hdiv hp).bind fun _ h => (plus h IsMeaning.one).of_eq (hv.mul_right_cancel ?_)
    rw [hw]
    linear_combination a * hy
  · exact IsMeaning.div (IsMeaning.of_eq (IsMeaning.plus hp hq) hw.symm) ht hv

theorem quotientOfDifference (hp : D p a) (hq : D q b) (ht : D t v)
    (hv : IsUnit v) (hw : w * v = a - b) : Gives E D (quotientOfDifference p q t) w := by
  obtain ⟨y, hy⟩ := hv.exists_left_inv
  have hdiv : ∀ {q : Tree} {b : K}, D q b → Gives E D (Plan.combine .div q t) (b * y) := by
    intro q b hq
    exact div (IsMeaning.of_eq hq (by rw [mul_assoc, hy, mul_one])) ht hv
  unfold Simplify.quotientOfDifference
  split
  · rename_i h
    obtain rfl := IsMeaning.eq_of_same h ht hp
    refine (hdiv hq).bind fun _ h => (minus IsMeaning.one h).of_eq (hv.mul_right_cancel ?_)
    rw [hw]
    linear_combination -b * hy
  split
  · rename_i h
    obtain rfl := IsMeaning.eq_of_same h ht hq
    refine (hdiv hp).bind fun _ h => (minus h IsMeaning.one).of_eq (hv.mul_right_cancel ?_)
    rw [hw]
    linear_combination a * hy
  · exact IsMeaning.div (IsMeaning.of_eq (IsMeaning.minus hp hq) hw.symm) ht hv

theorem quotientOfProduct (hp : D p a) (hq : D q b) (ht : D t v)
    (hv : IsUnit v) (hw : w * v = a * b) : Gives E D (quotientOfProduct p q t) w := by
  unfold Simplify.quotientOfProduct
  split
  · rename_i h
    obtain rfl := IsMeaning.eq_of_same h ht hp
    exact IsMeaning.of_eq hq (hv.mul_right_cancel (by rw [hw, mul_comm]))
  split
  · rename_i h
    obtain rfl := IsMeaning.eq_of_same h ht hq
    exact IsMeaning.of_eq hp (hv.mul_right_cancel hw.symm)
  · exact IsMeaning.div (IsMeaning.of_eq (IsMeaning.times hp hq) hw.symm) ht hv

theorem quotientOfQuotient (hp : D p a) (hq : D q b) (hb : IsUnit b)
    (hu : u * b = a) (ht : D t v) (hv : IsUnit v) (hw : w * v = u) :
    Gives E D (quotientOfQuotient p q t) w := by
  unfold Simplify.quotientOfQuotient
  split
  · obtain ⟨c, d, hr, hs, hd, hc⟩ := IsMeaning.parts ht
    have hcunit : IsUnit c := hc ▸ hv.mul hd
    refine (times hp hs).bind fun _ h => (times hq hr).bind fun _ h' =>
      div (IsMeaning.of_eq h ?_) h' (hb.mul hcunit)
    rw [← hu, ← hw, ← hc]
    ring
  split
  · have hpq : D (binary .div p q) (w * v) :=
      IsMeaning.of_eq (IsMeaning.div (IsMeaning.of_eq hp hu.symm) hq hb) hw.symm
    exact IsMeaning.div hpq ht hv
  · refine (times ht hq).bind fun _ h => div (IsMeaning.of_eq hp ?_) h (hv.mul hb)
    rw [← hu, ← hw]
    ring

theorem quotient (h : D (binary .div p q) w) : Gives E D (quotient p q) w := by
  have hplain := h
  obtain ⟨u, v, hp, hq, hv, hw⟩ := IsMeaning.parts h
  unfold Simplify.quotient
  split
  · exact quotientOfNumbers hplain
  split
  · rename_i h
    refine IsMeaning.of_eq (IsMeaning.zero (D := D)) (hv.mul_right_cancel ?_)
    rw [hw, IsMeaning.eq_zero hp h, zero_mul]
  split
  · rename_i h
    rw [IsMeaning.eq_one hq h, mul_one] at hw
    exact IsMeaning.of_eq hp hw.symm
  split
  · rename_i h
    obtain rfl := IsMeaning.eq_of_same h hp hq
    exact IsMeaning.of_eq (IsMeaning.one (D := D)) (hv.mul_right_cancel (by rw [hw, one_mul]))
  split
  · obtain ⟨a, b, ha, hb, rfl⟩ := IsMeaning.parts hp
    exact quotientOfSum ha hb hq hv hw
  · obtain ⟨a, b, ha, hb, rfl⟩ := IsMeaning.parts hp
    exact quotientOfDifference ha hb hq hv hw
  · obtain ⟨a, b, ha, hb, rfl⟩ := IsMeaning.parts hp
    exact quotientOfProduct ha hb hq hv hw
  · obtain ⟨a, b, ha, hb, hunit, hu⟩ := IsMeaning.parts hp
    exact quotientOfQuotient ha hb hunit hu hq hv hw
  · exact hplain

end

end Gives

/-! ### Numbers -/

section
variable (D) [KeepsSums E D]
include D

/-- Two numbers are joined to a number. -/
theorem ensures_rule_isNumber {op : Binary} {x y : Decimal} {q : ℚ}
    (h : computed? op x y = some q) :
    Ensures E (rule op (number x) (number y)) (IsNumber q) := by
  cases op with
  | plus | minus | times => exact ensures_rounded D h
  | _ => cases h

theorem ensures_product_isZero (h : p.isZero = true ∨ q.isZero = true) :
    Ensures E (product p q) fun s => s.isZero = true := by
  unfold product
  split
  · rename_i x y
    have hzero : ∀ {c : Decimal}, c.isZero = true → c.toRat? = some 0 := fun hc =>
      (Decimal.toRat?_eq_of_same hc).trans Decimal.toRat?_zero
    -- a factor without a value leaves the product without one
    intro c hc d hd
    obtain ⟨q, hq, hc⟩ := KeepsSums.number D hc
    obtain ⟨q', hq', hd⟩ := KeepsSums.number D hd
    obtain ⟨u, hu, hq⟩ := Option.bind_eq_some_iff.mp hq
    obtain ⟨v, hv, hq⟩ := Option.bind_eq_some_iff.mp hq
    cases hq
    rw [Computation.value?, hc] at hq'
    rcases h with h | h
    · obtain rfl := Option.some.inj (hu.symm.trans (hzero h))
      rw [zero_mul] at hq'
      cases hq'
      exact Decimal.isZero_of_toRat? hd
    · obtain rfl := Option.some.inj (hv.symm.trans (hzero h))
      rw [mul_zero] at hq'
      cases hq'
      exact Decimal.isZero_of_toRat? hd
  · rw [if_pos (by simpa using h)]
    rfl

/-- What the tree in place of an operation is where its operands are numbers, or one factor is
zero. -/
theorem ensures_shape (op : Binary) (a b : Tree) : Ensures E (rule op a b) fun s =>
    (∀ x y q, a = number x → b = number y → computed? op x y = some q → IsNumber q s) ∧
      (op = .times → a.isZero = true ∨ b.isZero = true → s.isZero = true) := by
  have hnumber : Ensures E (rule op a b) fun s => ∀ x y q, a = number x → b = number y →
      computed? op x y = some q → IsNumber q s := by
    refine .forall_intro fun x => .forall_intro fun y => .forall_intro fun q =>
      .forall_intro fun ha => .forall_intro fun hb => .forall_intro fun h => ?_
    rw [ha, hb]
    exact ensures_rule_isNumber D h
  have hzero : Ensures E (rule op a b) fun s => op = .times →
      a.isZero = true ∨ b.isZero = true → s.isZero = true := by
    refine .forall_intro fun hop => .forall_intro fun h => ?_
    rw [hop]
    exact ensures_product_isZero D h
  exact hnumber.and hzero

end

end Reckon.Simplify
