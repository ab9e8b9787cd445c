import Mathlib.Analysis.SpecialFunctions.Sqrt
import Reckon.Proofs.DifferenceRules
import Reckon.Proofs.ProductRules
import Reckon.Proofs.RealMeaning
import Reckon.Proofs.SumRules

/-!
# Answers that keep real values

The tree in place of an operation should have the value that the operation has, at every point and
in every grade that the rules keep (`Represents`), and a number that is found should be the real
number that was asked for (`Faithful`). Such answers keep the meaning of rational functions in all
grades but the strictest, and that of sums and multiples in the strictest as well.

`Arithmetic.unrounded` answers like that. It computes like the working arithmetic, but fails where
the number that it would return is not exactly the value of the computation.
-/

namespace Reckon.Simplify

open Reckon.Tree (number var unary binary Has)

/-- The real number that is taken if it is an integer. -/
def IntegerComputation.HasValue : IntegerComputation → ℝ → Prop
  | quotient a b, v => ∃ x y : ℚ, a.toRat? = some x ∧ b.toRat? = some y ∧ y ≠ 0 ∧ v = x / y
  | power a b, v => ∃ x y : ℚ, a.toRat? = some x ∧ b.toRat? = some y ∧
      Binary.power.IsDefinedAt x y ∧ v = (x : ℝ) ^ (y : ℝ)
  | half a, v => ∃ x : ℚ, a.toRat? = some x ∧ v = (x / 2 : ℚ)
  | root a, v => ∃ x : ℚ, a.toRat? = some x ∧ 0 ≤ x ∧ v = √x

/-- Products may become squares, so of these only multiples keep the strictest grade, and quotients
do not. -/
def KeepsGrade (g : Grade) (op : Binary) (a : Tree) : Prop :=
  g = .interior → op ≠ .div ∧ (op = .times → a.isNumber = true)

/-- The tree `s` may stand for the operation on `a` and `b`. -/
structure Represents (op : Binary) (a b s : Tree) : Prop where
  has : ∀ ρ g w, KeepsGrade g op a → Has ρ g (binary op a b) w → Has ρ g s w
  isNumber : ∀ x y q, a = number x → b = number y → computed? op x y = some q → IsNumber q s
  isZero : op = .times → a.isZero = true ∨ b.isZero = true → s.isZero = true
  eq_of_done : ∀ r, rule op a b = .done r → s = r
  powerOfNumbers : op = .power → a.isNumber = true → b.isNumber = true →
    s.isNumber = true ∨ s = binary op a b

def Faithful : Expectation
  | .number c, a => ∃ q, c.value? = some q ∧ a.toRat? = some q
  | .integer c, r => ∀ a ∈ r, ∃ q : ℚ, a.toRat? = some q ∧ c.HasValue q
  | .tree op a b, s => Represents op a b s

variable {ρ : String → ℝ} {g : Grade} {op : Binary} {a b s t : Tree} {u v w : ℝ}

theorem keepsGrade (hg : g ≠ .interior) : KeepsGrade g op a :=
  fun h => absurd h hg

instance : KeepsSums Faithful (Has ρ g) where
  number h := h
  isNumber h hq := h.isNumber _ _ _ rfl rfl hq
  plus h := h.has _ _ _ (fun _ => by simp)
  minus h := h.has _ _ _ (fun _ => by simp)
  scaled h := h.has _ _ _ (fun _ => by simp [Tree.isNumber])

/-! ### Powers -/

theorem Represents.hasPower (h : Represents .power a b s) (hw : Has ρ g (binary .power a b) w) :
    Has ρ g s w :=
  h.has _ _ _ (fun _ => by simp) hw

/-- The powers with the exponents `1 + n` and `n`. -/
theorem gives_times_power {x y n : Tree} (hsame : y.same x = true) (hx : Has ρ g x v)
    (h : Has ρ g (binary .power y n) u) :
    Gives Faithful (Has ρ g)
      (do Plan.combine .power x (← Plan.combine .plus .one n)) (v * u) := by
  rcases h.exists_of_power with ⟨v', e, hy, he, hpos, rfl⟩ | ⟨hg, n, v', k, rfl, hy, hn, hk, rfl⟩
  · obtain rfl := IsMeaning.eq_of_same (D := Has ρ .interior) hsame hy ⟨hy.1.of_same hsame, hx.2⟩
    refine (Gives.plus (IsMeaning.one (D := Has ρ .interior)) he).bind fun m hm s hs => ?_
    refine IsMeaning.of_eq (hs.hasPower ((hy.of_same hsame).power hm hpos)) ?_
    rw [Real.rpow_add hpos, Real.rpow_one]
  · obtain rfl := IsMeaning.eq_of_same (D := Has ρ g) hsame hy hx
    refine Gives.bind_isNumber (ensures_plus (Has ρ g) Decimal.toRat?_one hn) fun m hm s hs => ?_
    have hm : m.toRat? = some ((1 + k : ℤ) : ℚ) := by
      rw [hm]
      push_cast
      rfl
    have hle : 0 ≤ k → 0 ≤ 1 + k := fun h => by omega
    refine IsMeaning.of_eq (hs.hasPower (hx.integerPower hg hm (hk.imp_right hle))) ?_
    rcases eq_or_ne v' 0 with rfl | hne
    · have : 0 ≤ k := hk.resolve_left fun h => h rfl
      rw [zero_mul, zero_zpow _ (by omega)]
    · rw [zpow_one_add₀ hne]

theorem keepsProducts (hg : g ≠ .interior) : KeepsProducts Faithful (Has ρ g) where
  times h := h.has _ _ _ (keepsGrade hg)
  isZero h := h.isZero rfl
  div h := h.has _ _ _ (keepsGrade hg)
  power h _ := h.hasPower
  square := by
    intro a u ha
    have hn : Decimal.two.toRat? = some ((2 : ℤ) : ℚ) := by simpa using Decimal.toRat?_two
    exact IsMeaning.of_eq (ha.integerPower hg hn (.inr (by omega))) (by rw [zpow_two])
  quotient := by
    intro x y r h a ha
    obtain ⟨q, hq, x', y', hx, hy, hne, heq⟩ := h a ha
    refine ⟨q, ?_, hq⟩
    have : q = x' / y' := by exact_mod_cast heq
    rw [IntegerComputation.value?, hx, hy]
    simp [hne, this]
  times_power _ := gives_times_power

instance : KeepsProducts Faithful (Has ρ .defined) :=
  keepsProducts (by simp)

/-- The value of a power with a number as the exponent and a positive base. -/
theorem exists_of_power_number {n : Decimal} {x : ℚ} (hn : n.toRat? = some x)
    (h : Has ρ g (binary .power a (number n)) w) :
    (∃ v, Has ρ .interior a v ∧ 0 < v ∧ w = v ^ (x : ℝ)) ∨
      g ≠ .interior ∧ ∃ v, ∃ k : ℤ, Has ρ g a v ∧ x = k ∧ (v ≠ 0 ∨ 0 ≤ k) ∧ w = v ^ k := by
  rcases h.exists_of_power with ⟨v, e, ha, he, hv, rfl⟩ | ⟨hg, n, v, k, heq, ha, hk, hv, rfl⟩
  · obtain rfl : x = e := (Tree.real_number hn).symm.trans he.2
    exact .inl ⟨v, ha, hv, rfl⟩
  · cases heq
    exact .inr ⟨hg, v, k, ha, Option.some.inj (hn.symm.trans hk), hv, rfl⟩

/-- A power of a power is a power with the product of the exponents. -/
theorem has_power_mul {n m l : Decimal} {x y : ℚ} (hn : n.toRat? = some x) (hm : m.toRat? = some y)
    (hl : l.toRat? = some (x * y))
    (h : Has ρ g (binary .power (binary .power a (number n)) (number m)) w) :
    Has ρ g (binary .power a (number l)) w := by
  have hpositive : ∀ {v : ℝ}, Has ρ .interior a v → 0 < v →
      Has ρ g (binary .power a (number l)) ((v ^ (x : ℝ)) ^ (y : ℝ)) := by
    intro v ha hv
    refine IsMeaning.of_eq (ha.power (IsMeaning.number hl) hv) ?_
    rw [← Real.rpow_mul hv.le, eq_ratCast, Rat.cast_mul]
  rcases exists_of_power_number hm h with ⟨u, hu, hpos, rfl⟩ | ⟨hg, u, j, hu, rfl, hj, rfl⟩
  · rcases exists_of_power_number hn hu with ⟨v, ha, hv, rfl⟩ | ⟨hne, -⟩
    · exact hpositive ha hv
    · exact absurd rfl hne
  · rcases exists_of_power_number hn hu with ⟨v, ha, hv, rfl⟩ | ⟨-, v, k, ha, rfl, hk, rfl⟩
    · refine IsMeaning.of_eq (hpositive ha hv) ?_
      rw [Rat.cast_intCast, Real.rpow_intCast]
    · have hl : l.toRat? = some ((k * j : ℤ) : ℚ) := by
        rw [hl]
        push_cast
        rfl
      -- where the base is zero, the inner exponent is not negative
      have hkj : v ≠ 0 ∨ 0 ≤ k * j := by
        by_contra! hcon
        obtain ⟨rfl, hneg⟩ := hcon
        have hk : 0 ≤ k := hk.resolve_left fun h => h rfl
        rcases hk.eq_or_lt with rfl | hk
        · simp at hneg
        · rw [zero_zpow _ hk.ne'] at hj
          have hj : 0 ≤ j := hj.resolve_left fun h => h rfl
          exact absurd (mul_nonneg hk.le hj) (by omega)
      exact IsMeaning.of_eq (ha.integerPower hg hl hkj) (zpow_mul v k j)

theorem gives_powerOfNumbers {x y : Decimal} (h : Has ρ g (binary .power (number x) (number y)) w) :
    Gives Faithful (Has ρ g) (powerOfNumbers x y) w := by
  unfold powerOfNumbers
  intro r hr
  cases r with
  | none => exact h
  | some z =>
    obtain ⟨q, hz, x', y', hx, hy, -, hq⟩ := hr z rfl
    refine (Gives.kept hz).of_eq ?_
    rw [eq_ratCast, hq, ← h.2, Tree.real, Tree.real_number hx, Tree.real_number hy]
    rfl

theorem gives_power (h : Has ρ g (binary .power a b) w) :
    Gives Faithful (Has ρ g) (power a b) w := by
  have hw : a.real ρ ^ b.real ρ = w := h.2
  have hbase : Has ρ g a (a.real ρ) := by
    rcases h.1 with h | h
    · exact ⟨h.1.mono (.inl rfl), rfl⟩
    · exact ⟨h.2.1, rfl⟩
  have hzero : b.isZero = true → Has ρ g Tree.one w := fun hb => by
    rw [(IsMeaning.of_isZero (D := Has ρ .interior) hb).2, Real.rpow_zero] at hw
    exact IsMeaning.of_eq IsMeaning.one hw
  have hone : b.isOne = true → Has ρ g a w := fun hb => by
    rw [(IsMeaning.of_isOne (D := Has ρ .interior) hb).2, Real.rpow_one] at hw
    exact IsMeaning.of_eq hbase hw
  unfold power
  split
  · split
    · rename_i hx
      rcases Bool.or_eq_true_iff.mp hx with hx | hy
      · rw [(IsMeaning.of_isOne (D := Has ρ .interior) hx).2, Real.one_rpow] at hw
        exact IsMeaning.of_eq (IsMeaning.one (D := Has ρ g)) hw
      · exact hzero hy
    split
    · exact hone ‹_›
    · exact gives_powerOfNumbers h
  split
  · exact hzero ‹_›
  split
  · exact hone ‹_›
  split
  · obtain ⟨x', hx⟩ := hbase.1.exists_exponent
    obtain ⟨y', hy⟩ := h.1.exists_exponent
    refine Gives.bind_isNumber (ensures_computed (Has ρ g) (value?_product hx hy))
      fun m hm s hs => ?_
    exact hs.hasPower (has_power_mul hx hy hm h)
  · exact h

/-! ### Rules -/

theorem gives_rule (hg : KeepsGrade g op a) (h : Has ρ g (binary op a b) w) :
    Gives Faithful (Has ρ g) (rule op a b) w := by
  cases op with
  | plus =>
    obtain ⟨_, _, ha, hb, rfl⟩ := IsMeaning.parts h
    exact Gives.sum ha hb
  | minus =>
    obtain ⟨_, _, ha, hb, rfl⟩ := IsMeaning.parts h
    exact Gives.difference ha hb
  | times =>
    obtain ⟨_, _, ha, hb, rfl⟩ := IsMeaning.parts h
    by_cases hinterior : g = .interior
    · cases a with
      | number c => exact Gives.productOfNumber ha hb
      | var | unary | binary => cases (hg hinterior).2 rfl
    · have := keepsProducts (ρ := ρ) hinterior
      exact Gives.product ha hb
  | div =>
    have := keepsProducts (ρ := ρ) fun hinterior => (hg hinterior).1 rfl
    exact Gives.quotient h
  | power => exact gives_power h
  | _ => exact h

/-- A power of two numbers is computed or left as it is. -/
theorem ensures_power_isNumber (x y : Decimal) :
    Ensures Faithful (power (number x) (number y)) fun s =>
      s.isNumber = true ∨ s = binary .power (number x) (number y) := by
  rw [power]
  split
  · exact Or.inl rfl
  split
  · exact Or.inl rfl
  · intro r _
    cases r with
    | none => exact Or.inr rfl
    | some z => exact fun _ _ => Or.inl rfl

theorem ensures_represents (op : Binary) (a b : Tree) :
    Ensures Faithful (rule op a b) (Represents op a b) := by
  have hhas : Ensures Faithful (rule op a b) fun s =>
      ∀ ρ g w, KeepsGrade g op a → Has ρ g (binary op a b) w → Has ρ g s w :=
    .forall_intro fun ρ => .forall_intro fun g => .forall_intro fun w =>
      .forall_intro fun hg => .forall_intro fun h => gives_rule hg h
  have hshape := ensures_shape (Has (fun _ => 0) .defined) (E := Faithful) op a b
  have hpower : Ensures Faithful (rule op a b) fun s => op = .power → a.isNumber = true →
      b.isNumber = true → s.isNumber = true ∨ s = binary op a b := by
    refine .forall_intro fun hop => .forall_intro fun ha => .forall_intro fun hb => ?_
    subst hop
    cases a with
    | number x =>
      cases b with
      | number y => exact ensures_power_isNumber x y
      | var | unary | binary => cases hb
    | var | unary | binary => cases ha
  exact (((hhas.and hshape).and (.eq_of_done _)).and hpower).mono
    fun s h => ⟨h.1.1.1, h.1.1.2.1, h.1.1.2.2, h.1.2, h.2⟩

/-! ### Runs without rounding -/

open Classical in
/-- The number if it is the real number that was asked for. -/
noncomputable def IntegerComputation.verified (c : IntegerComputation) (a : Decimal) :
    Except Failure Decimal :=
  if ∃ q : ℚ, a.toRat? = some q ∧ c.HasValue q then .ok a
  else .error (.signal .invalidOperation)

/-- Numbers that are not rounded; powers and roots are those of the real numbers. -/
noncomputable def Arithmetic.unrounded : Arithmetic where
  number := Arithmetic.exact.number
  integer c := do
    match ← Arithmetic.working.integer c with
    | some a => return some (← c.verified a)
    | none => return none

/-- The plan runs through without a number that is rounded. -/
def Plan.IsUnrounded {α : Type} (p : Plan α) : Prop :=
  ∃ a, p.run .unrounded = .ok a

theorem IntegerComputation.verified_eq_ok_iff {c : IntegerComputation} {a b : Decimal} :
    c.verified a = .ok b ↔ a = b ∧ ∃ q : ℚ, a.toRat? = some q ∧ c.HasValue q := by
  unfold verified
  constructor
  · intro h
    split at h
    · cases h
      exact ⟨rfl, ‹_›⟩
    · cases h
  · rintro ⟨rfl, hvalue⟩
    rw [if_pos hvalue]

theorem unrounded_integer {c : IntegerComputation} {r : Option Decimal}
    (h : Arithmetic.unrounded.integer c = .ok r) : Arithmetic.working.integer c = .ok r ∧
      ∀ a ∈ r, ∃ q : ℚ, a.toRat? = some q ∧ c.HasValue q := by
  obtain ⟨r', hr', h⟩ := bind_eq_ok_iff.mp h
  cases r' with
  | none =>
    cases h
    exact ⟨hr', fun a ha => by cases ha⟩
  | some b =>
    obtain ⟨a, ha, h⟩ := bind_eq_ok_iff.mp h
    obtain ⟨rfl, hvalue⟩ := IntegerComputation.verified_eq_ok_iff.mp ha
    cases h
    refine ⟨hr', fun a ha => ?_⟩
    cases ha
    exact hvalue

theorem fulfills_unrounded : Arithmetic.unrounded.Fulfills Faithful where
  number _ _ h := (exact_number h).2
  integer _ _ h := (unrounded_integer h).2
  rule := ensures_represents

theorem unrounded_isPartOf_working : Arithmetic.unrounded.IsPartOf .working where
  number _ _ h := (exact_number h).1
  integer _ _ h := (unrounded_integer h).1

/-- A run without rounding keeps the promise of its plan. -/
theorem Plan.IsUnrounded.follow {α : Type} {p : Plan α} {P : α → Prop} (h : p.IsUnrounded)
    (hp : Ensures Faithful p P) {a : α} (ha : p.run .working = .ok a) : P a := by
  obtain ⟨b, hb⟩ := h
  obtain rfl := Except.ok.inj ((unrounded_isPartOf_working.run hb).symm.trans ha)
  exact fulfills_unrounded.run hp hb

/-- The value in the rational numbers, where there is one. -/
theorem IntegerComputation.hasValue_of_value? {c : IntegerComputation} {q : ℚ}
    (h : c.value? = some q) : c.HasValue q := by
  cases c with
  | quotient a b =>
    obtain ⟨x, hx, h⟩ := Option.bind_eq_some_iff.mp h
    obtain ⟨y, hy, h⟩ := Option.bind_eq_some_iff.mp h
    split at h
    · cases h
    · cases h
      exact ⟨x, y, hx, hy, ‹_›, by push_cast; rfl⟩
  | power a b =>
    obtain ⟨x, hx, h⟩ := Option.bind_eq_some_iff.mp h
    obtain ⟨y, hy, h⟩ := Option.bind_eq_some_iff.mp h
    unfold integralPower at h
    split at h
    · rename_i hden
      split at h
      · cases h
      · rename_i hdefined
        cases h
        have hy' : ((y.num : ℚ) : ℝ) = y := by rw [Rat.den_eq_one_iff y |>.mp hden]
        rw [Rat.cast_intCast] at hy'
        refine ⟨x, y, hx, hy, .inr (.inr ⟨y.num, hy'.symm, ?_⟩), ?_⟩
        · rw [Rat.cast_ne_zero]
          by_contra! hcon
          exact hdefined hcon
        · rw [← hy', Real.rpow_intCast, Rat.cast_zpow]
    · cases h
  | half a =>
    obtain ⟨x, hx, h⟩ := Option.bind_eq_some_iff.mp h
    cases h
    exact ⟨x, hx, rfl⟩
  | root a =>
    obtain ⟨x, hx, h⟩ := Option.bind_eq_some_iff.mp h
    split at h
    · rename_i hsquare
      cases h
      refine ⟨x, hx, hsquare ▸ mul_self_nonneg _, ?_⟩
      have hcast : (x : ℝ) = x.sqrt * x.sqrt := by exact_mod_cast hsquare.symm
      rw [hcast, Real.sqrt_mul_self (by exact_mod_cast Rat.sqrt_nonneg x)]
    · cases h

/-- What is exact in the rational numbers is so in the real ones. -/
theorem exact_isPartOf_unrounded : Arithmetic.exact.IsPartOf .unrounded where
  number _ _ h := h
  integer c r h := by
    obtain ⟨hr, hvalue⟩ := exact_integer h
    refine bind_eq_ok_iff.mpr ⟨r, hr, ?_⟩
    cases r with
    | none => rfl
    | some a =>
      obtain ⟨q, hq, ha⟩ := hvalue a rfl
      have hverified := IntegerComputation.verified_eq_ok_iff.mpr
        ⟨rfl, q, ha, IntegerComputation.hasValue_of_value? hq⟩
      exact bind_eq_ok_iff.mpr ⟨a, hverified, rfl⟩

theorem Plan.IsExact.isUnrounded {α : Type} {p : Plan α} (h : p.IsExact) : p.IsUnrounded := by
  obtain ⟨a, ha⟩ := h
  exact ⟨a, exact_isPartOf_unrounded.run ha⟩

end Reckon.Simplify
