import Mathlib.Algebra.Algebra.Rat
import Mathlib.Algebra.Group.Units.Basic
import Mathlib.Algebra.GroupWithZero.Units.Basic
import Mathlib.Tactic.Ring
import Reckon.Proofs.DecimalValue
import Reckon.Tree.Basic

/-!
# The meaning of rational functions

`Means ρ t v`: with the values `ρ` of the variables the tree `t` is defined and has the value `v`,
where `t` is built with sums, differences, products, quotients and powers with an integer as the
exponent. The values lie in any commutative algebra over the rationals; one divides by units. In the
rationals this is arithmetic, in the dual numbers it is arithmetic together with a derivative, and
in the algebra with a single element it only says that the tree has this form.
-/

namespace Reckon

open Reckon.Tree (number var unary binary)

variable {K : Type} [CommRing K]

/-! ### Integer powers -/

/-- `v` is `u` to the power `k`; a negative power asks for a unit. -/
inductive IsPower : K → ℤ → K → Prop
  | nat (u : K) (n : ℕ) : IsPower u n (u ^ n)
  | unit (u : Kˣ) (k : ℤ) : IsPower u k (u ^ k : Kˣ)

namespace IsPower
variable {u v w : K} {j k : ℤ}

theorem zero (u : K) : IsPower u 0 1 := by
  simpa using nat u 0

theorem one (u : K) : IsPower u 1 u := by
  simpa using nat u 1

theorem two (u : K) : IsPower u 2 (u * u) := by
  simpa [pow_two] using nat u 2

theorem unique (h : IsPower u k v) (h' : IsPower u k w) : v = w := by
  cases h with
  | nat u n =>
    generalize hk : (n : ℤ) = k at h'
    cases h' with
    | nat u m => rw [Int.natCast_inj.mp hk]
    | unit u k => rw [← hk, zpow_natCast, Units.val_pow_eq_pow_val]
  | unit u k =>
    generalize hu : (u : K) = u' at h'
    cases h' with
    | nat u' n => rw [← hu, zpow_natCast, Units.val_pow_eq_pow_val]
    | unit u' k => rw [Units.ext hu]

theorem of_isUnit (hu : IsUnit u) (h : IsPower u k v) : ∃ a : Kˣ, u = a ∧ v = (a ^ k : Kˣ) := by
  obtain ⟨a, rfl⟩ := hu
  exact ⟨a, rfl, h.unique (unit a k)⟩

theorem mul_self (h : IsPower u k v) : IsPower u (1 + k) (u * v) := by
  cases h with
  | nat u n =>
    have := nat u (1 + n)
    rwa [pow_add, pow_one, Nat.cast_add, Nat.cast_one] at this
  | unit u k =>
    have := unit u (1 + k)
    rwa [zpow_add, zpow_one, Units.val_mul] at this

theorem pow (h : IsPower u j v) (h' : IsPower v k w) : IsPower u (j * k) w := by
  by_cases hu : IsUnit u
  · obtain ⟨a, rfl, rfl⟩ := h.of_isUnit hu
    obtain ⟨b, hb, rfl⟩ := h'.of_isUnit (Units.isUnit _)
    rw [← Units.ext hb, ← zpow_mul]
    exact unit a (j * k)
  · cases h with
    | unit u j => exact absurd u.isUnit hu
    | nat u n =>
      rcases Nat.eq_zero_or_pos n with rfl | hn
      · -- the zeroth power is one, and so is every power of it
        rw [pow_zero] at h'
        have hone : IsPower (1 : K) k 1 := by simpa using unit (1 : Kˣ) k
        rw [h'.unique hone]
        simpa using zero u
      · generalize hv : u ^ n = v at h'
        cases h' with
        | nat v m =>
          rw [← hv, ← pow_mul, ← Nat.cast_mul]
          exact nat u (n * m)
        | unit v k =>
          refine absurd ?_ hu
          have : IsUnit (u ^ n) := by
            rw [hv]
            exact v.isUnit
          exact (isUnit_pow_iff hn.ne').mp this

theorem of_one (h : IsPower (1 : K) k v) : v = 1 := by
  have hone : IsPower (1 : K) k 1 := by simpa using unit (1 : Kˣ) k
  exact h.unique hone

theorem map {L : Type} [CommRing L] (f : K →+* L) (h : IsPower u k v) :
    IsPower (f u) k (f v) := by
  cases h with
  | nat u n =>
    rw [map_pow]
    exact nat (f u) n
  | unit u k =>
    have := unit (Units.map f.toMonoidHom u) k
    rw [← map_zpow] at this
    exact this

end IsPower

/-! ### Meaning -/

variable [Algebra ℚ K] (ρ : String → Option K)

def Means : Tree → K → Prop
  | .number a, w => ∃ q, a.toRat? = some q ∧ w = algebraMap ℚ K q
  | .var x, w => ρ x = some w
  | .binary .plus a b, w => ∃ u v, Means a u ∧ Means b v ∧ w = u + v
  | .binary .minus a b, w => ∃ u v, Means a u ∧ Means b v ∧ w = u - v
  | .binary .times a b, w => ∃ u v, Means a u ∧ Means b v ∧ w = u * v
  | .binary .div a b, w => ∃ u v, Means a u ∧ Means b v ∧ IsUnit v ∧ w * v = u
  | .binary .power a (.number n), w =>
    ∃ (u : K) (k : ℤ), Means a u ∧ n.toRat? = some (k : ℚ) ∧ IsPower u k w
  | _, _ => False

namespace Means
variable {ρ} {a b t s : Tree} {u v w : K}

theorem number {c : Decimal} {q : ℚ} (h : c.toRat? = some q) :
    Means ρ (number c) (algebraMap ℚ K q) :=
  ⟨q, h, rfl⟩

theorem plus (ha : Means ρ a u) (hb : Means ρ b v) : Means ρ (binary .plus a b) (u + v) :=
  ⟨u, v, ha, hb, rfl⟩

theorem minus (ha : Means ρ a u) (hb : Means ρ b v) : Means ρ (binary .minus a b) (u - v) :=
  ⟨u, v, ha, hb, rfl⟩

theorem times (ha : Means ρ a u) (hb : Means ρ b v) : Means ρ (binary .times a b) (u * v) :=
  ⟨u, v, ha, hb, rfl⟩

theorem div (ha : Means ρ a (w * v)) (hb : Means ρ b v) (hv : IsUnit v) :
    Means ρ (binary .div a b) w :=
  ⟨w * v, v, ha, hb, hv, rfl⟩

theorem power {n : Decimal} {k : ℤ} (ha : Means ρ a u) (hn : n.toRat? = some (k : ℚ))
    (hw : IsPower u k w) : Means ρ (binary .power a (.number n)) w :=
  ⟨u, k, ha, hn, hw⟩

/-- The exponent of a power that means something is an integer. -/
theorem exists_of_power (h : Means ρ (binary .power a b) w) :
    ∃ n u, ∃ k : ℤ, b = .number n ∧ Means ρ a u ∧ n.toRat? = some (k : ℚ) ∧ IsPower u k w := by
  cases b with
  | number n =>
    obtain ⟨u, k, ha, hn, hw⟩ := h
    exact ⟨n, u, k, rfl, ha, hn, hw⟩
  | var | unary | binary => exact h.elim

theorem of_eq (h : Means ρ t u) (huv : u = v) : Means ρ t v :=
  huv ▸ h

/-- The parts of a meaningful operation are meaningful. -/
theorem exists_operands {op : Binary} (h : Means ρ (binary op a b) w) :
    ∃ u v, Means ρ a u ∧ Means ρ b v := by
  cases op with
  | plus | minus | times =>
    obtain ⟨u, v, ha, hb, -⟩ := h
    exact ⟨u, v, ha, hb⟩
  | div =>
    obtain ⟨u, v, ha, hb, -⟩ := h
    exact ⟨u, v, ha, hb⟩
  | power =>
    obtain ⟨n, u, k, rfl, ha, hn, -⟩ := exists_of_power h
    exact ⟨u, _, ha, number hn⟩
  | _ => exact h.elim

theorem unique (h : Means ρ t v) (h' : Means ρ t w) : v = w := by
  induction t generalizing v w with
  | number a =>
    obtain ⟨q, hq, rfl⟩ := h
    obtain ⟨q', hq', rfl⟩ := h'
    rw [hq] at hq'
    rw [Option.some.inj hq']
  | var x => exact Option.some.inj (h.symm.trans h')
  | unary op a => exact h.elim
  | binary op a b iha ihb =>
    cases op with
    | plus | minus | times =>
      obtain ⟨u₁, v₁, ha₁, hb₁, rfl⟩ := h
      obtain ⟨u₂, v₂, ha₂, hb₂, rfl⟩ := h'
      rw [iha ha₁ ha₂, ihb hb₁ hb₂]
    | div =>
      obtain ⟨u₁, v₁, ha₁, hb₁, hv, h₁⟩ := h
      obtain ⟨u₂, v₂, ha₂, hb₂, -, h₂⟩ := h'
      rw [iha ha₁ ha₂, ← h₂, ihb hb₂ hb₁] at h₁
      exact hv.mul_right_cancel h₁
    | power =>
      obtain ⟨n, u₁, k₁, rfl, ha₁, hn₁, h₁⟩ := exists_of_power h
      obtain ⟨u₂, k₂, ha₂, hn₂, h₂⟩ := h'
      rw [hn₁] at hn₂
      rw [← Int.cast_inj.mp (Option.some.inj hn₂), ← iha ha₁ ha₂] at h₂
      exact h₁.unique h₂
    | _ => exact h.elim

/-- What is put in place of the operands must mean the same, and an exponent stay a number of the
same value. -/
theorem congr {ρ' : String → Option K} {op : Binary} {a' b' : Tree} (h : Means ρ (binary op a b) w)
    (ha : ∀ u, Means ρ a u → Means ρ' a' u) (hb : ∀ v, Means ρ b v → Means ρ' b' v)
    (hnumber : ∀ n, b = .number n → ∃ n', b' = .number n' ∧ n'.toRat? = n.toRat?) :
    Means ρ' (binary op a' b') w := by
  cases op with
  | plus | minus | times =>
    obtain ⟨u, v, hu, hv, rfl⟩ := h
    exact ⟨u, v, ha u hu, hb v hv, rfl⟩
  | div =>
    obtain ⟨u, v, hu, hv, hunit, rfl⟩ := h
    exact ⟨_, v, ha _ hu, hb v hv, hunit, rfl⟩
  | power =>
    obtain ⟨n, u, k, rfl, hu, hn, hw⟩ := exists_of_power h
    obtain ⟨n', rfl, hn'⟩ := hnumber n rfl
    exact ⟨u, k, ha u hu, hn'.trans hn, hw⟩
  | _ => exact h.elim

/-- Only the values of the variables in a tree matter to its meaning. -/
theorem mono {ρ' : String → Option K} (h : Means ρ t v)
    (hρ : ∀ y ∈ t.names, ∀ u, ρ y = some u → ρ' y = some u) : Means ρ' t v := by
  induction t generalizing v with
  | number a => exact h
  | var x => exact hρ x (List.mem_singleton_self x) v h
  | unary op a => exact h.elim
  | binary op a b iha ihb =>
    have hleft := fun y hy => hρ y (List.mem_append_left b.names hy)
    have hright := fun y hy => hρ y (List.mem_append_right a.names hy)
    refine h.congr (fun u hu => iha hu hleft) (fun u hu => ihb hu hright) ?_
    intro n hn
    exact ⟨n, hn, rfl⟩

/-- The variables of a tree that means something have values. -/
theorem isSome (h : Means ρ t v) : ∀ y ∈ t.names, (ρ y).isSome = true := by
  induction t generalizing v with
  | number a => simp [Tree.names]
  | var x =>
    intro y hy
    obtain rfl := List.mem_singleton.mp hy
    rw [show ρ y = some v from h]
    rfl
  | unary op a => exact h.elim
  | binary op a b iha ihb =>
    obtain ⟨u, w, ha, hb⟩ := h.exists_operands
    intro y hy
    rcases List.mem_append.mp hy with hy | hy
    · exact iha ha y hy
    · exact ihb hb y hy

/-- Trees that are the same mean the same. -/
theorem of_same (hsame : t.same s = true) (h : Means ρ t v) : Means ρ s v := by
  induction t generalizing s v with
  | number a =>
    cases s with
    | number b =>
      obtain ⟨q, hq, rfl⟩ := h
      rw [Decimal.toRat?_eq_of_same hsame] at hq
      exact number hq
    | var | unary | binary => cases hsame
  | var x =>
    cases s with
    | var y =>
      obtain rfl : x = y := by simpa [Tree.same] using hsame
      exact h
    | number | unary | binary => cases hsame
  | unary op a => exact h.elim
  | binary op a b iha ihb =>
    cases s with
    | binary op' a' b' =>
      rw [Tree.same, Bool.and_eq_true, Bool.and_eq_true, decide_eq_true_eq] at hsame
      obtain ⟨⟨rfl, ha⟩, hb⟩ := hsame
      refine h.congr (fun u => iha ha) (fun v => ihb hb) ?_
      rintro n rfl
      cases b' with
      | number n' => exact ⟨n', rfl, (Decimal.toRat?_eq_of_same hb).symm⟩
      | var | unary | binary => cases hb
    | number | var | unary => cases hsame

theorem eq_of_same (hsame : t.same s = true) (ht : Means ρ t u) (hs : Means ρ s v) : u = v :=
  (of_same hsame ht).unique hs

end Means

end Reckon
