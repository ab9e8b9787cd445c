import Mathlib.Algebra.Algebra.Rat
import Mathlib.Tactic.Ring
import Reckon.Proofs.Ensures
import Reckon.Proofs.ExactArithmetic

/-!
# Plans that keep a meaning

`D t v` says that the tree `t` means `v`; it `IsMeaning` if numbers, sums, differences, products and
quotients mean what they should. Answers to questions keep such a meaning for sums (`KeepsSums`) or
for products and quotients as well (`KeepsProducts`) if numbers are exact and the tree in place of
an operation means what the operation means. `Gives E D p v`: answered as `E` expects, the plan `p`
builds a tree with the meaning `v`.
-/

namespace Reckon.Simplify

open Reckon.Tree (number var unary binary)

variable {K : Type} [CommRing K] [Algebra ℚ K]

/-- Numbers mean their values, sums, differences, products and quotients those of their operands,
and trees that are the same mean the same. One divides by units. -/
class IsMeaning (D : Tree → K → Prop) : Prop where
  number_iff : ∀ {c : Decimal} {v : K},
    D (number c) v ↔ ∃ q, c.toRat? = some q ∧ v = algebraMap ℚ K q
  plus_iff : ∀ {a b : Tree} {w : K},
    D (binary .plus a b) w ↔ ∃ u v, D a u ∧ D b v ∧ w = u + v
  minus_iff : ∀ {a b : Tree} {w : K},
    D (binary .minus a b) w ↔ ∃ u v, D a u ∧ D b v ∧ w = u - v
  times_iff : ∀ {a b : Tree} {w : K},
    D (binary .times a b) w ↔ ∃ u v, D a u ∧ D b v ∧ w = u * v
  div_iff : ∀ {a b : Tree} {w : K},
    D (binary .div a b) w ↔ ∃ u v, D a u ∧ D b v ∧ IsUnit v ∧ w * v = u
  eq_of_same : ∀ {a b : Tree} {u v : K}, a.same b = true → D a u → D b v → u = v

namespace IsMeaning
variable {D : Tree → K → Prop} [IsMeaning D] {a b t : Tree} {u v : K}

omit [CommRing K] [Algebra ℚ K] [IsMeaning D] in
theorem of_eq (h : D t u) (huv : u = v) : D t v :=
  huv ▸ h

theorem number {c : Decimal} {q : ℚ} (h : c.toRat? = some q) :
    D (number c) (algebraMap ℚ K q) :=
  number_iff.mpr ⟨q, h, rfl⟩

theorem zero : D Tree.zero 0 :=
  number_iff.mpr ⟨0, Decimal.toRat?_zero, (map_zero _).symm⟩

theorem one : D Tree.one 1 :=
  number_iff.mpr ⟨1, Decimal.toRat?_one, (map_one _).symm⟩

theorem two : D Tree.two 2 :=
  number_iff.mpr ⟨2, Decimal.toRat?_two, (map_ofNat (algebraMap ℚ K) 2).symm⟩

theorem minusOne : D Tree.minusOne (-1) :=
  number_iff.mpr ⟨-1, Decimal.toRat?_minusOne, by simp⟩

theorem plus (ha : D a u) (hb : D b v) : D (binary .plus a b) (u + v) :=
  plus_iff.mpr ⟨u, v, ha, hb, rfl⟩

theorem minus (ha : D a u) (hb : D b v) : D (binary .minus a b) (u - v) :=
  minus_iff.mpr ⟨u, v, ha, hb, rfl⟩

theorem times (ha : D a u) (hb : D b v) : D (binary .times a b) (u * v) :=
  times_iff.mpr ⟨u, v, ha, hb, rfl⟩

theorem div {w : K} (ha : D a (w * v)) (hb : D b v) (hv : IsUnit v) : D (binary .div a b) w :=
  div_iff.mpr ⟨w * v, v, ha, hb, hv, rfl⟩

variable (D) in
/-- What the operands of a sum, a difference, a product or a quotient mean. -/
def Parts (op : Binary) (a b : Tree) (w : K) : Prop :=
  match op with
  | .plus => ∃ u v, D a u ∧ D b v ∧ w = u + v
  | .minus => ∃ u v, D a u ∧ D b v ∧ w = u - v
  | .times => ∃ u v, D a u ∧ D b v ∧ w = u * v
  | .div => ∃ u v, D a u ∧ D b v ∧ IsUnit v ∧ w * v = u
  | _ => True

theorem parts {op : Binary} (h : D (binary op a b) v) : Parts D op a b v := by
  cases op with
  | plus => exact plus_iff.mp h
  | minus => exact minus_iff.mp h
  | times => exact times_iff.mp h
  | div => exact div_iff.mp h
  | _ => trivial

theorem eq_zero (h : D t v) (hzero : t.isZero = true) : v = 0 := by
  cases t with
  | number a => exact eq_of_same (a := .number a) (b := .zero) hzero h zero
  | var | unary | binary => cases hzero

theorem eq_one (h : D t v) (hone : t.isOne = true) : v = 1 := by
  cases t with
  | number a => exact eq_of_same (a := .number a) (b := .one) hone h one
  | var | unary | binary => cases hone

theorem of_isZero (h : t.isZero = true) : D t 0 := by
  cases t with
  | number a =>
    exact number_iff.mpr
      ⟨0, (Decimal.toRat?_eq_of_same h).trans Decimal.toRat?_zero, (map_zero _).symm⟩
  | var | unary | binary => cases h

theorem of_isOne (h : t.isOne = true) : D t 1 := by
  cases t with
  | number a =>
    exact number_iff.mpr
      ⟨1, (Decimal.toRat?_eq_of_same h).trans Decimal.toRat?_one, (map_one _).symm⟩
  | var | unary | binary => cases h

end IsMeaning

/-! ### Answers -/

/-- The exact number that an operation on two numbers is. -/
def computed? (op : Binary) (x y : Decimal) : Option ℚ :=
  match op with
  | .plus => (Computation.sum x y).value?
  | .minus => (Computation.difference x y).value?
  | .times => (Computation.product x y).value?
  | _ => none

/-- A tree is a number with the given value. -/
def IsNumber (q : ℚ) (t : Tree) : Prop :=
  ∃ a, t = number a ∧ a.toRat? = some q

theorem IsNumber.means {D : Tree → K → Prop} [IsMeaning D] {q : ℚ} {t : Tree} (h : IsNumber q t) :
    D t (algebraMap ℚ K q) := by
  obtain ⟨a, rfl, ha⟩ := h
  exact IsMeaning.number ha

/-- Numbers are exact, and the trees in place of sums, differences and multiples mean what these
mean. -/
class KeepsSums (E : Expectation) (D : Tree → K → Prop) : Prop extends IsMeaning D where
  number : ∀ {c : Computation} {a : Decimal}, E (.number c) a →
    ∃ q, c.value? = some q ∧ a.toRat? = some q
  isNumber : ∀ {op : Binary} {x y : Decimal} {s : Tree} {q : ℚ},
    E (.tree op (.number x) (.number y)) s → computed? op x y = some q → IsNumber q s
  plus : ∀ {a b s : Tree} {w : K}, E (.tree .plus a b) s → D (binary .plus a b) w → D s w
  minus : ∀ {a b s : Tree} {w : K}, E (.tree .minus a b) s → D (binary .minus a b) w → D s w
  scaled : ∀ {c : Decimal} {a s : Tree} {w : K}, E (.tree .times (.number c) a) s →
    D (binary .times (.number c) a) w → D s w

/-- Products, quotients and integer powers are kept too, and a product with zero is zero whatever
the other factor is. -/
class KeepsProducts (E : Expectation) (D : Tree → K → Prop) : Prop extends KeepsSums E D where
  times : ∀ {a b s : Tree} {w : K}, E (.tree .times a b) s → D (binary .times a b) w → D s w
  isZero : ∀ {a b s : Tree}, E (.tree .times a b) s → a.isZero = true ∨ b.isZero = true →
    s.isZero = true
  div : ∀ {a b s : Tree} {w : K}, E (.tree .div a b) s → D (binary .div a b) w → D s w
  power : ∀ {a s : Tree} {n : Decimal} {k : ℤ} {w : K}, E (.tree .power a (.number n)) s →
    n.toRat? = some (k : ℚ) → D (binary .power a (.number n)) w → D s w
  square : ∀ {a : Tree} {u : K}, D a u → D (binary .power a .two) (u * u)
  quotient : ∀ {x y : Decimal} {r : Option Decimal}, E (.integer (.quotient x y)) r →
    ∀ a ∈ r, ∃ q, (IntegerComputation.quotient x y).value? = some q ∧ a.toRat? = some q
  times_power : ∀ {x y n : Tree} {u v : K}, x.isCompound = false → y.same x = true → D x v →
    D (binary .power y n) u →
    Ensures E (do Plan.combine .power x (← Plan.combine .plus .one n)) (D · (v * u))

/-- The plan builds a tree with the meaning `v`. -/
abbrev Gives (E : Expectation) (D : Tree → K → Prop) (p : Plan Tree) (v : K) : Prop :=
  Ensures E p (D · v)

/-! ### Numbers -/

section
variable {x y : Decimal} {p q : ℚ}

theorem value?_sum (hx : x.toRat? = some p) (hy : y.toRat? = some q) :
    (Computation.sum x y).value? = some (p + q) := by
  rw [Computation.value?, hx, hy]
  rfl

theorem value?_difference (hx : x.toRat? = some p) (hy : y.toRat? = some q) :
    (Computation.difference x y).value? = some (p - q) := by
  rw [Computation.value?, hx, hy]
  rfl

theorem value?_product (hx : x.toRat? = some p) (hy : y.toRat? = some q) :
    (Computation.product x y).value? = some (p * q) := by
  rw [Computation.value?, hx, hy]
  rfl

theorem value?_opposite (hx : x.toRat? = some p) : (Computation.opposite x).value? = some (-p) := by
  rw [Computation.value?, hx]
  rfl

end

variable {E : Expectation} {D : Tree → K → Prop}

section
variable (D) [KeepsSums E D]
include D

theorem ensures_number {c : Computation} {q : ℚ} (h : c.value? = some q) :
    Ensures E (Plan.number c) fun a => a.toRat? = some q := by
  intro a ha
  obtain ⟨q', hq', ha⟩ := KeepsSums.number D ha
  rw [h] at hq'
  cases hq'
  exact ha

theorem ensures_kept {a : Decimal} {q : ℚ} (h : a.toRat? = some q) :
    Ensures E (kept a) (IsNumber q) :=
  (ensures_number D (c := .kept a) h).bind fun b hb => ⟨b, rfl, hb⟩

theorem ensures_rounded {c : Computation} {q : ℚ} (h : c.value? = some q) :
    Ensures E (rounded c) (IsNumber q) :=
  (ensures_number D h).bind fun _ ha => ensures_kept D ha

theorem ensures_negated {a : Decimal} {q : ℚ} (h : a.toRat? = some q) :
    Ensures E (negated a) (IsNumber (-q)) :=
  ensures_rounded D (value?_opposite h)

/-- The sum, difference or product of two numbers is a number. -/
theorem ensures_computed {op : Binary} {x y : Decimal} {q : ℚ} (h : computed? op x y = some q) :
    Ensures E (Plan.combine op (.number x) (.number y)) (IsNumber q) :=
  fun _ hs => KeepsSums.isNumber D hs h

theorem ensures_plus {x y : Decimal} {p q : ℚ} (hx : x.toRat? = some p) (hy : y.toRat? = some q) :
    Ensures E (Plan.combine .plus (.number x) (.number y)) (IsNumber (p + q)) :=
  ensures_computed D (value?_sum hx hy)

theorem ensures_minus {x y : Decimal} {p q : ℚ} (hx : x.toRat? = some p) (hy : y.toRat? = some q) :
    Ensures E (Plan.combine .minus (.number x) (.number y)) (IsNumber (p - q)) :=
  ensures_computed D (value?_difference hx hy)

end

/-! ### Trees -/

namespace Gives
variable {p : Plan Tree} {a b : Tree} {u v w : K}

omit [CommRing K] [Algebra ℚ K] in
theorem of_eq (h : Gives E D p u) (huv : u = v) : Gives E D p v :=
  huv ▸ h

section
variable [KeepsSums E D]

theorem kept {c : Decimal} {q : ℚ} (h : c.toRat? = some q) :
    Gives E D (kept c) (algebraMap ℚ K q) :=
  (ensures_kept D h).mono fun _ => IsNumber.means

theorem rounded {c : Computation} {q : ℚ} (h : c.value? = some q) :
    Gives E D (rounded c) (algebraMap ℚ K q) :=
  (ensures_rounded D h).mono fun _ => IsNumber.means

theorem negated {c : Decimal} {q : ℚ} (h : c.toRat? = some q) :
    Gives E D (negated c) (-algebraMap ℚ K q) := by
  rw [← map_neg]
  exact (ensures_negated D h).mono fun _ => IsNumber.means

theorem plus (ha : D a u) (hb : D b v) : Gives E D (Plan.combine .plus a b) (u + v) :=
  fun _ hs => KeepsSums.plus hs (IsMeaning.plus ha hb)

theorem minus (ha : D a u) (hb : D b v) : Gives E D (Plan.combine .minus a b) (u - v) :=
  fun _ hs => KeepsSums.minus hs (IsMeaning.minus ha hb)

theorem scaled {c : Decimal} (hc : D (number c) v) (ha : D a u) :
    Gives E D (Plan.combine .times (number c) a) (v * u) :=
  fun _ hs => KeepsSums.scaled hs (IsMeaning.times hc ha)

omit [Algebra ℚ K] [CommRing K] [KeepsSums E D] in
/-- A plan that goes on with a number. -/
theorem bind_isNumber {q : ℚ} {f : Tree → Plan Tree} (h : Ensures E p (IsNumber q))
    (hf : ∀ c, c.toRat? = some q → Gives E D (f (number c)) w) : Gives E D (p >>= f) w := by
  refine h.bind fun s hs => ?_
  obtain ⟨c, rfl, hc⟩ := hs
  exact hf c hc

theorem scaled_of_isNumber {q : ℚ} (h : Ensures E p (IsNumber q)) (ha : D a u) :
    Gives E D (do Plan.combine .times (← p) a) (algebraMap ℚ K q * u) :=
  bind_isNumber h fun _ hc => scaled (IsMeaning.number hc) ha

theorem twice (ha : D a u) : Gives E D (twice a) (2 * u) :=
  scaled IsMeaning.two ha

theorem opposite (ha : D a u) : Gives E D (opposite a) (-u) :=
  (scaled IsMeaning.minusOne ha).of_eq (neg_one_mul u)

section
variable {c : Decimal} (hc : D (number c) v) (ha : D a u)
include hc ha

theorem oneMore : Gives E D (oneMore c a) ((1 + v) * u) := by
  obtain ⟨q, hq, rfl⟩ := IsMeaning.number_iff.mp hc
  refine (scaled_of_isNumber (ensures_plus D Decimal.toRat?_one hq) ha).of_eq ?_
  rw [map_add, map_one]

theorem oneLess : Gives E D (oneLess c a) ((v - 1) * u) := by
  obtain ⟨q, hq, rfl⟩ := IsMeaning.number_iff.mp hc
  refine (scaled_of_isNumber (ensures_minus D hq Decimal.toRat?_one) ha).of_eq ?_
  rw [map_sub, map_one]

theorem oneMinus : Gives E D (oneMinus c a) ((1 - v) * u) := by
  obtain ⟨q, hq, rfl⟩ := IsMeaning.number_iff.mp hc
  refine (scaled_of_isNumber (ensures_minus D Decimal.toRat?_one hq) ha).of_eq ?_
  rw [map_sub, map_one]

theorem minusOneMinus : Gives E D (minusOneMinus c a) ((-1 - v) * u) := by
  obtain ⟨q, hq, rfl⟩ := IsMeaning.number_iff.mp hc
  refine (scaled_of_isNumber (ensures_minus D Decimal.toRat?_minusOne hq) ha).of_eq ?_
  rw [map_sub, map_neg, map_one]

end

end

section
variable [KeepsProducts E D]

theorem times (ha : D a u) (hb : D b v) : Gives E D (Plan.combine .times a b) (u * v) :=
  fun _ hs => KeepsProducts.times hs (IsMeaning.times ha hb)

theorem div (ha : D a (w * v)) (hb : D b v) (hv : IsUnit v) :
    Gives E D (Plan.combine .div a b) w :=
  fun _ hs => KeepsProducts.div hs (IsMeaning.div ha hb hv)

theorem square (ha : D a u) : Gives E D (square a) (u * u) :=
  fun _ hs => KeepsProducts.power (k := 2) hs (by simpa using Decimal.toRat?_two)
    (KeepsProducts.square E ha)

end

end Gives

end Reckon.Simplify
