import Reckon.Proofs.ProductRules
import Reckon.Tree.Derivative

/-!
# Rules for derivatives

`N t v v'` says that around a point the tree `t` has the value `v` and the slope `v'`. Where the
parts of an operation have a value and a slope, the rules for derivatives build a tree with the
slope of the operation. The rules for powers with an integer as the exponent hold for every such
meaning too; for other powers and for functions there is one in the real numbers only.
-/

namespace Reckon.Simplify

open Reckon.Tree (number var unary binary)

variable {K : Type} [CommRing K] [Algebra ℚ K]

/-- The parts of an operation with a slope have slopes, and the slope of the operation comes from
these. -/
class HasSlopes (D : Tree → K → Prop) (N : Tree → K → K → Prop) : Prop where
  means : ∀ {t : Tree} {v v' : K}, N t v v' → D t v
  plus : ∀ {a b : Tree} {w w' : K}, N (binary .plus a b) w w' →
    ∃ u u' v v', N a u u' ∧ N b v v' ∧ w' = u' + v'
  minus : ∀ {a b : Tree} {w w' : K}, N (binary .minus a b) w w' →
    ∃ u u' v v', N a u u' ∧ N b v v' ∧ w' = u' - v'
  times : ∀ {a b : Tree} {w w' : K}, N (binary .times a b) w w' →
    ∃ u u' v v', N a u u' ∧ N b v v' ∧ w' = u * v' + u' * v
  div : ∀ {a b : Tree} {w w' : K}, N (binary .div a b) w w' →
    ∃ u u' v v', N a u u' ∧ N b v v' ∧ IsUnit v ∧ w' * (v * v) = v * u' - u * v'

theorem ensures_derivative_number {E : Expectation} (x : String) (levels : Nat) (n : Decimal) :
    Ensures E (Tree.derivativeLevels x levels (number n)) fun s => s.isZero = true := by
  cases levels with
  | zero => trivial
  | succ levels => rfl

namespace Gives

section
variable {E : Expectation} {D : Tree → K → Prop} [KeepsProducts E D]
  {N : Tree → K → K → Prop} [HasSlopes D N] {derivative : Tree → Plan Tree}
  (hderivative : ∀ (t : Tree) (v v' : K), N t v v' → Gives E D (derivative t) v')
  {a b t : Tree} {u u' w w' : K}
include hderivative

/-- Terms are derived one by one. -/
theorem derivativeOfTerms (h : N t w w') :
    Gives E D (Tree.foldSpine Binary.isSign derivative Plan.combine t) w' := by
  induction t generalizing w w' with
  | number | var | unary => exact hderivative _ _ _ h
  | binary op a b iha ihb =>
    rw [Tree.foldSpine]
    split
    · cases op with
      | plus =>
        obtain ⟨u, u', v, v', ha, hb, rfl⟩ := HasSlopes.plus D h
        exact (iha ha).bind fun _ ha => (hderivative _ _ _ hb).bind fun _ hb => plus ha hb
      | minus =>
        obtain ⟨u, u', v, v', ha, hb, rfl⟩ := HasSlopes.minus D h
        exact (iha ha).bind fun _ ha => (hderivative _ _ _ hb).bind fun _ hb => minus ha hb
      | _ => cases ‹Binary.isSign _ = true›
    · exact hderivative _ _ _ h

theorem derivativeOfProduct (h : N (binary .times a b) w w') :
    Gives E D (do
      let left ← Plan.combine .times a (← derivative b)
      Plan.combine .plus left (← Plan.combine .times (← derivative a) b)) w' := by
  obtain ⟨u, u', v, v', ha, hb, rfl⟩ := HasSlopes.times D h
  exact (hderivative _ _ _ hb).bind fun _ hdb =>
    (times (HasSlopes.means ha) hdb).bind fun _ hleft =>
    (hderivative _ _ _ ha).bind fun _ hda =>
    (times hda (HasSlopes.means hb)).bind fun _ hright => plus hleft hright

theorem derivativeOfQuotient (h : N (binary .div a b) w w') :
    Gives E D (do
      let left ← Plan.combine .times b (← derivative a)
      let right ← Plan.combine .times a (← derivative b)
      Plan.combine .div (← Plan.combine .minus left right) (← Simplify.square b)) w' := by
  obtain ⟨u, u', v, v', ha, hb, hunit, hw⟩ := HasSlopes.div D h
  exact (hderivative _ _ _ ha).bind fun _ hda =>
    (times (HasSlopes.means hb) hda).bind fun _ hleft =>
    (hderivative _ _ _ hb).bind fun _ hdb =>
    (times (HasSlopes.means ha) hdb).bind fun _ hright =>
    (minus hleft hright).bind fun _ h => (square (HasSlopes.means hb)).bind fun _ h' =>
      div (IsMeaning.of_eq h hw.symm) h' (hunit.mul hunit)

omit [HasSlopes D N] in
/-- A power of a number is constant: its derivative contains that of the exponent, zero, as a
factor. The power below the zeroth need not be defined, but it is multiplied by zero. -/
theorem derivativeOfIntegerPower {n : Decimal} {k : ℤ}
    (hzero : ∀ n, Ensures E (derivative (number n)) fun s => s.isZero = true)
    (hn : n.toRat? = some (k : ℚ)) (ha : N a u u')
    (hconstant : ∀ c, a = number c → w' = 0) (hw₀ : k = 0 → w' = 0)
    (hw : k ≠ 0 → ∃ l, w' = u' * (k * l) ∧
      ∀ m, m.toRat? = some ((k - 1 : ℤ) : ℚ) → D (binary .power a (number m)) l) :
    Gives E D (Tree.derivativeOfPower derivative a (number n)) w' := by
  have htimes : ∀ {a b : Tree}, a.isZero = true ∨ b.isZero = true →
      Ensures E (Plan.combine .times a b) fun s => s.isZero = true :=
    fun h s hs => KeepsProducts.isZero D hs h
  have hpower : ∀ {m : Decimal} {j : ℤ} {l : K}, m.toRat? = some (j : ℚ) →
      D (binary .power a (number m)) l → Gives E D (Plan.combine .power a (number m)) l :=
    fun hm h s hs => KeepsProducts.power hs hm h
  unfold Tree.derivativeOfPower
  split
  · rw [hconstant _ rfl]
    exact (hzero n).bind fun _ hdb => (htimes (.inr hdb)).bind fun _ h =>
      (htimes (.inl h)).mono fun _ => IsMeaning.of_isZero
  · rename_i m hm
    cases hm
    have hlower : Ensures E (Plan.combine .minus (number n) .one) (IsNumber (k - 1)) :=
      ensures_minus D hn Decimal.toRat?_one
    refine (hderivative _ _ _ ha).bind fun _ hda => bind_isNumber hlower fun m hm => ?_
    by_cases hk : k = 0
    · have hn : (number n).isZero = true := Decimal.isZero_of_toRat? (by simpa [hk] using hn)
      rw [hw₀ hk]
      refine Ensures.bind (P := fun _ => True) (.of_forall fun _ => trivial) fun _ _ => ?_
      exact (htimes (.inl hn)).bind fun _ h =>
        (htimes (.inr h)).mono fun _ => IsMeaning.of_isZero
    · obtain ⟨l, rfl, hl⟩ := hw hk
      have hm : m.toRat? = some ((k - 1 : ℤ) : ℚ) := by
        rw [hm]
        push_cast
        rfl
      refine (hpower hm (hl m hm)).bind fun _ h =>
        (times (IsMeaning.number hn) h).bind fun _ h' => (times hda h').of_eq ?_
      rw [map_intCast]
  · rename_i hne
    exact absurd rfl (hne n)

end

end Gives

end Reckon.Simplify
