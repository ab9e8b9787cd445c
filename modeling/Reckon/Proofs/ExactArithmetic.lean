import Mathlib.Data.Rat.Sqrt
import Reckon.Proofs.DecimalValue
import Reckon.Proofs.Results
import Reckon.Simplify.Combine

/-!
# Runs without rounding

`Arithmetic.exact` computes like `Arithmetic.working`, but fails where the number that it would
return is not exactly the value of the computation. A plan `IsExact` when it runs through with that
arithmetic: no number that it used or created was rounded. Its result is then that of the plain run
(`Plan.run_working_of_exact`).
-/

namespace Reckon.Simplify

/-- The power with an integer exponent, where it is defined; the zeroth power is one. -/
def integralPower (x y : ℚ) : Option ℚ :=
  if y.den = 1 then if x = 0 ∧ y.num < 0 then none else some (x ^ y.num) else none

theorem integralPower_intCast (x : ℚ) (k : ℤ) :
    integralPower x k = if x = 0 ∧ k < 0 then none else some (x ^ k) := by
  unfold integralPower
  rw [if_pos (Rat.den_intCast k)]
  congr 1

namespace Computation

/-- The value of a computation. -/
def value? : Computation → Option ℚ
  | sum a b => do return (← a.toRat?) + (← b.toRat?)
  | difference a b => do return (← a.toRat?) - (← b.toRat?)
  | product a b => do return (← a.toRat?) * (← b.toRat?)
  | opposite a => do return -(← a.toRat?)
  | kept a => a.toRat?

end Computation

namespace IntegerComputation

def value? : IntegerComputation → Option ℚ
  | quotient a b => do
    let x ← a.toRat?
    let y ← b.toRat?
    if y = 0 then none else some (x / y)
  | power a b => do integralPower (← a.toRat?) (← b.toRat?)
  | half a => do return (← a.toRat?) / 2
  | root a => do
    let x ← a.toRat?
    if x.sqrt * x.sqrt = x then some x.sqrt else none

end IntegerComputation

/-- The number if it has the given value. -/
def checked (value : Option ℚ) (a : Decimal) : Except Failure Decimal :=
  if value.isSome ∧ a.toRat? = value then .ok a else .error (.signal .invalidOperation)

/-- Numbers that are not rounded. -/
def Arithmetic.exact : Arithmetic where
  number c := Arithmetic.working.number c >>= checked c.value?
  integer c := do
    match ← Arithmetic.working.integer c with
    | some a => return some (← checked c.value? a)
    | none => return none

def Plan.IsExact {α : Type} (p : Plan α) : Prop :=
  ∃ a, p.run .exact = .ok a

theorem Plan.isExact_iff {α : Type} {p : Plan α} : (p.run .exact).isOk = true ↔ p.IsExact := by
  unfold IsExact
  cases p.run .exact with
  | ok a => exact ⟨fun _ => ⟨a, rfl⟩, fun _ => rfl⟩
  | error f => exact ⟨(fun h => nomatch h), fun ⟨_, h⟩ => nomatch h⟩

instance {α : Type} (p : Plan α) : Decidable p.IsExact :=
  decidable_of_iff _ Plan.isExact_iff

theorem checked_eq_ok_iff {value : Option ℚ} {a b : Decimal} :
    checked value a = .ok b ↔ a = b ∧ ∃ q, value = some q ∧ a.toRat? = some q := by
  unfold checked
  constructor
  · intro h
    split at h
    · rename_i hvalue
      cases h
      obtain ⟨q, hq⟩ := Option.isSome_iff_exists.mp hvalue.1
      exact ⟨rfl, q, hq, by rw [hvalue.2, hq]⟩
    · cases h
  · rintro ⟨rfl, q, hq, ha⟩
    rw [if_pos ⟨by rw [hq]; rfl, by rw [ha, hq]⟩]

theorem exact_number {c : Computation} {a : Decimal} (h : Arithmetic.exact.number c = .ok a) :
    Arithmetic.working.number c = .ok a ∧ ∃ q, c.value? = some q ∧ a.toRat? = some q := by
  obtain ⟨b, hb, hchecked⟩ := bind_eq_ok_iff.mp h
  obtain ⟨rfl, hq⟩ := checked_eq_ok_iff.mp hchecked
  exact ⟨hb, hq⟩

theorem exact_integer {c : IntegerComputation} {r : Option Decimal}
    (h : Arithmetic.exact.integer c = .ok r) :
    Arithmetic.working.integer c = .ok r ∧
      ∀ a ∈ r, ∃ q, c.value? = some q ∧ a.toRat? = some q := by
  obtain ⟨r', hr', h⟩ := bind_eq_ok_iff.mp h
  cases r' with
  | none =>
    cases h
    exact ⟨hr', fun a ha => by cases ha⟩
  | some b =>
    obtain ⟨a, ha, h⟩ := bind_eq_ok_iff.mp h
    obtain ⟨rfl, hq⟩ := checked_eq_ok_iff.mp ha
    cases h
    refine ⟨hr', fun a ha => ?_⟩
    cases ha
    exact hq

theorem isIntegral_of_ifIntegral {a b : Decimal} (h : b ∈ IntegerComputation.ifIntegral a) :
    b.isIntegral = true := by
  unfold IntegerComputation.ifIntegral at h
  split at h
  · rename_i ha
    cases h
    exact ha
  · cases h

/-- What is taken as an integer is one. -/
theorem isIntegral_of_integer {c : IntegerComputation} {r : Option Decimal}
    (h : c.result = .ok r) : ∀ a ∈ r, a.isIntegral = true := by
  intro a ha
  cases c with
  | power x y =>
    rw [IntegerComputation.result] at h
    split at h
    · cases h
      exact isIntegral_of_ifIntegral ha
    · cases h
      cases ha
    · cases h
  | quotient | half | root =>
    obtain ⟨v, -, hv⟩ := bind_eq_ok_iff.mp h
    cases hv
    exact isIntegral_of_ifIntegral ha

/-! ### Following plans -/

namespace Plan
variable {α β : Type}

@[simp] theorem bind_eq (p : Plan α) (f : α → Plan β) : p >>= f = p.bind f := rfl

@[simp] theorem pure_eq (a : α) : (pure a : Plan α) = done a := rfl

theorem follow_bind (answer : (q : Question) → Except Failure q.Answer) (p : Plan α)
    (f : α → Plan β) :
    (p.bind f).follow answer = p.follow answer >>= fun a => (f a).follow answer := by
  induction p with
  | done a => rfl
  | fail e => rfl
  | ask q next ih =>
    rw [bind, follow, follow, bind_assoc]
    congr 1
    funext a
    exact ih a

theorem run_bind_eq_ok_iff {arith : Arithmetic} {p : Plan α} {f : α → Plan β} {b : β} :
    (p >>= f).run arith = .ok b ↔ ∃ a, p.run arith = .ok a ∧ (f a).run arith = .ok b := by
  rw [run, bind_eq, follow_bind, bind_eq_ok_iff]
  rfl

/-- Whoever knows more answers comes to the same result. -/
theorem follow_mono {answer answer' : (q : Question) → Except Failure q.Answer}
    (h : ∀ q a, answer q = .ok a → answer' q = .ok a) {p : Plan α} {b : α}
    (hp : p.follow answer = .ok b) : p.follow answer' = .ok b := by
  induction p with
  | done a => exact hp
  | fail e => exact hp
  | ask q next ih =>
    obtain ⟨a, ha, hnext⟩ := bind_eq_ok_iff.mp hp
    exact bind_eq_ok_iff.mpr ⟨a, h q a ha, ih a hnext⟩

end Plan

namespace Arithmetic

/-- Whatever `arith` computes, `arith'` computes as well. -/
structure IsPartOf (arith arith' : Arithmetic) : Prop where
  number : ∀ c a, arith.number c = .ok a → arith'.number c = .ok a
  integer : ∀ c r, arith.integer c = .ok r → arith'.integer c = .ok r

namespace IsPartOf
variable {arith arith' : Arithmetic} (h : arith.IsPartOf arith')
include h

theorem answer {combine combine' : Combine}
    (hcombine : ∀ op a b s, combine op a b = .ok s → combine' op a b = .ok s) (q : Question)
    (a : q.Answer) (ha : arith.answer combine q = .ok a) : arith'.answer combine' q = .ok a := by
  cases q with
  | number c => exact h.number c a ha
  | integer c => exact h.integer c a ha
  | tree op l r => exact hcombine op l r a ha

theorem combineWithin (bound : Nat) (op : Binary) (a b s : Tree)
    (hs : combineWithin arith bound op a b = .ok s) :
    Simplify.combineWithin arith' bound op a b = .ok s := by
  induction bound generalizing op a b s with
  | zero => cases hs
  | succ bound ih => exact Plan.follow_mono (h.answer ih) hs

theorem run {α : Type} {p : Plan α} {a : α} (ha : p.run arith = .ok a) : p.run arith' = .ok a :=
  Plan.follow_mono (h.answer fun op a b s => h.combineWithin _ op a b s) ha

end IsPartOf

theorem exact_isPartOf_working : exact.IsPartOf working where
  number _ _ h := (exact_number h).1
  integer _ _ h := (exact_integer h).1

end Arithmetic

/-- A run without rounding is a run. -/
theorem Plan.run_working_of_exact {α : Type} {p : Plan α} {a : α} (h : p.run .exact = .ok a) :
    p.run .working = .ok a :=
  Arithmetic.exact_isPartOf_working.run h

theorem Plan.IsExact.run_eq {α : Type} {p : Plan α} (h : p.IsExact) {a : α}
    (ha : p.run .working = .ok a) : p.run .exact = .ok a := by
  obtain ⟨b, hb⟩ := h
  rw [run_working_of_exact hb] at ha
  rw [hb, ha]

end Reckon.Simplify
