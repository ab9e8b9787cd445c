import Reckon.Proofs.LinearRules
import Reckon.Proofs.RoundedOnce
import Reckon.Proofs.Simplification
import Reckon.Proofs.Termination

/-!
# Like terms

When linear trees are added, subtracted or multiplied by a number, the numbers in front of like
terms are computed. A number that is held in the context in which it is computed is exact, and if
all numbers that an operation `Obtains` are, so is the simplified tree (`like_terms_exact`). Numbers
are held with the digits of the working precision, but numbers whose sign is turned with fewer.
-/

namespace Reckon.Simplify

open Reckon.Tree (number var unary binary)

namespace Computation
variable {c : Computation} {q : ℚ}

/-- Where the number is rounded. -/
def context : Computation → Context
  | opposite _ => .plain
  | _ => .working

/-- The number is one that needs no rounding. -/
def IsHeld (c : Computation) : Prop :=
  ∃ q, c.value? = some q ∧ c.context.Holds q

theorem digits_context_pos (c : Computation) : 0 < c.context.digits := by
  cases c with
  | opposite => exact Nat.zero_lt_succ 27
  | _ => exact Nat.zero_lt_succ 49

theorem rounds_result (h : c.value? = some q) : c.context.Rounds q c.result := by
  have hdigits := c.digits_context_pos
  cases c with
  | sum a b =>
    obtain ⟨x, hx, h⟩ := Option.bind_eq_some_iff.mp h
    obtain ⟨y, hy, h⟩ := Option.bind_eq_some_iff.mp h
    cases h
    exact Decimal.rounds_add hdigits hx hy
  | difference a b =>
    obtain ⟨x, hx, h⟩ := Option.bind_eq_some_iff.mp h
    obtain ⟨y, hy, h⟩ := Option.bind_eq_some_iff.mp h
    cases h
    exact Decimal.rounds_sub hdigits hx hy
  | product a b =>
    obtain ⟨x, hx, h⟩ := Option.bind_eq_some_iff.mp h
    obtain ⟨y, hy, h⟩ := Option.bind_eq_some_iff.mp h
    cases h
    exact Decimal.rounds_mul hdigits hx hy
  | opposite a =>
    obtain ⟨x, hx, h⟩ := Option.bind_eq_some_iff.mp h
    cases h
    exact Decimal.rounds_minus hdigits hx
  | kept a => exact Decimal.rounds_plus hdigits h

/-- A number is exact if and only if it is held. -/
theorem isHeld_iff : c.IsHeld ↔ ∃ a, Arithmetic.exact.number c = .ok a := by
  constructor
  · rintro ⟨q, hq, hholds⟩
    obtain ⟨a, ha, hvalue⟩ := (rounds_result hq).exact hholds
    exact ⟨a, bind_eq_ok_iff.mpr ⟨a, mapError_eq_ok_iff.mpr ha,
      checked_eq_ok_iff.mpr ⟨rfl, q, hq, hvalue⟩⟩⟩
  · rintro ⟨a, ha⟩
    obtain ⟨hresult, q, hq, hvalue⟩ := exact_number ha
    exact ⟨q, hq, ((rounds_result hq).exists_self_iff c.digits_context_pos).mp
      ⟨a, mapError_eq_ok_iff.mp hresult, hvalue⟩⟩

instance (c : Computation) : Decidable c.IsHeld :=
  decidable_of_iff ((Arithmetic.exact.number c).isOk = true) <| by
    rw [isHeld_iff]
    cases Arithmetic.exact.number c with
    | ok a => exact ⟨fun _ => ⟨a, rfl⟩, fun _ => rfl⟩
    | error f => exact ⟨(by rintro ⟨⟩), (by rintro ⟨_, ⟨⟩⟩)⟩

/-- A sum with twenty-nine digits is exact, and a number with as many is not once its sign is
turned. -/
example :
    (sum (.finite true 200000000000000000000000000001 (-29)) .one).IsHeld ∧
      ¬(opposite (.finite true 100000000000000000000000000001 (-29))).IsHeld := by
  decide +kernel

end Computation

/-! ### Numbers behind an operation -/

namespace Plan
variable {α : Type} {p : Plan α} {c : Computation} {d e : Operation}

/-- The number is asked for when the plan is run. -/
def Computes (p : Plan α) (c : Computation) : Prop :=
  .number c ∈ p.asked (Arithmetic.working.answer (combineBy .working))

/-- The number is asked for when the plan is run, or for the sake of a tree that is. -/
def Obtains (p : Plan α) (c : Computation) : Prop :=
  p.Computes c ∨ ∃ d, p.LeadsTo d ∧ d.plan.Computes c

theorem Calls.leadsTo (h : p.Calls d) : p.LeadsTo d :=
  ⟨d, h, .refl⟩

theorem Calls.leadsTo_of_leadsTo (h : p.Calls d) (he : d.plan.LeadsTo e) : p.LeadsTo e := by
  obtain ⟨d', hd', hpath⟩ := he
  exact ⟨d, h, hpath.head hd'⟩

theorem Calls.obtains (h : p.Calls d) (hc : d.plan.Obtains c) : p.Obtains c := by
  rcases hc with hc | ⟨e, he, hc⟩
  · exact .inr ⟨d, h.leadsTo, hc⟩
  · exact .inr ⟨e, h.leadsTo_of_leadsTo he, hc⟩

end Plan

/-! ### Runs on linear trees -/

/-- Followed with answers that the questions have twice, a plan that never fails comes to an end. -/
theorem Respects.exists_follow {T : Terms} {α : Type} {p : Plan α} {P : α → Prop}
    {answer answer' : (q : Question) → Except Failure q.Answer} (h : Respects T p P)
    (hfail : ∀ f, ¬T.fail f)
    (hanswer : ∀ q ∈ p.asked answer, T.ask q →
      ∃ a, answer q = .ok a ∧ answer' q = .ok a ∧ T.answer q a) :
    ∃ a, p.follow answer' = .ok a ∧ P a := by
  induction p with
  | done a => exact ⟨a, rfl, h⟩
  | fail f => exact (hfail f h).elim
  | ask q next ih =>
    obtain ⟨a, ha, ha', hexpected⟩ := hanswer q (by rw [Plan.asked]; exact List.mem_cons_self) h.1
    obtain ⟨b, hb, hP⟩ := ih a (h.2 a hexpected) fun q' hq' =>
      hanswer q' (by rw [Plan.asked, ha]; exact List.mem_cons_of_mem _ hq')
    exact ⟨b, bind_eq_ok_iff.mpr ⟨a, ha', hb⟩, hP⟩

variable {op : Binary} {a b t : Tree}

theorem isFinite_of_exact {c : Computation} {x : Decimal} (h : Arithmetic.exact.number c = .ok x) :
    x.isFinite = true := by
  obtain ⟨-, q, -, hx⟩ := exact_number h
  cases x with
  | finite => rfl
  | infinite | nan => cases hx

/-- If the numbers behind a linear operation are held, it is simplified without rounding. -/
theorem Operation.exists_combine_exact (c : Operation) (hop : IsLinearIn c.op c.left)
    (hleft : c.left.isLinear = true) (hright : c.right.isLinear = true)
    (hheld : ∀ n, c.plan.Obtains n → n.IsHeld) :
    ∃ s, combineBy .exact c.op c.left c.right = .ok s ∧ linear.answer c.question s := by
  induction hn : c.measure using Nat.strong_induction_on generalizing c with
  | _ n ih =>
    subst hn
    rw [combineBy_eq]
    suffices hanswer : ∀ q ∈ c.plan.asked (Arithmetic.working.answer (combineBy .working)),
        linear.ask q → ∃ x, Arithmetic.working.answer (combineBy .working) q = .ok x ∧
          Arithmetic.exact.answer (combineBy .exact) q = .ok x ∧ linear.answer q x from
      (Stays.rule hop hleft hright).exists_follow (fun _ => id) hanswer
    intro q hasked hq
    cases q with
    | number n =>
      obtain ⟨x, hx⟩ := Computation.isHeld_iff.mp (hheld n (.inl hasked))
      exact ⟨x, Arithmetic.exact_isPartOf_working.number n x hx, hx, isFinite_of_exact hx⟩
    | integer n => exact hq.elim
    | tree op' l r =>
      have hcalls : c.plan.Calls ⟨op', l, r⟩ := hasked
      obtain ⟨s, hs, hlinear⟩ := ih _ (Operation.measure_lt hcalls) ⟨op', l, r⟩ hq.1 hq.2.1 hq.2.2
        (fun n hn => hheld n (hcalls.obtains hn)) rfl
      exact ⟨s, Arithmetic.exact_isPartOf_working.combineWithin _ _ _ _ _ hs, hs, hlinear⟩

/-! ### Values -/

theorem exists_of_isLinear_binary (h : (binary op a b).isLinear = true) :
    (op = .plus ∨ op = .minus ∨ op = .times) ∧ a.isLinear = true ∧ b.isLinear = true := by
  cases op with
  | plus => exact ⟨.inl rfl, Bool.and_eq_true_iff.mp h⟩
  | minus => exact ⟨.inr (.inl rfl), Bool.and_eq_true_iff.mp h⟩
  | times => exact ⟨.inr (.inr rfl), Bool.and_eq_true_iff.mp (Bool.and_eq_true_iff.mp h).2⟩
  | _ => cases h

theorem IsLinearIn.isLinear (hop : IsLinearIn op a) (ha : a.isLinear = true)
    (hb : b.isLinear = true) : (binary op a b).isLinear = true := by
  rcases hop with hop | ⟨rfl, hnumber⟩
  · exact (isLinear_sign hop).mpr ⟨ha, hb⟩
  · exact Bool.and_eq_true_iff.mpr
      ⟨(Bool.or_eq_true _ _).mpr (.inl hnumber), Bool.and_eq_true_iff.mpr ⟨ha, hb⟩⟩

theorem isRational_of_isLinear (h : t.isLinear = true) : t.isRational = true := by
  induction t with
  | number c => exact h
  | var x => rfl
  | unary op a => cases h
  | binary op a b iha ihb =>
    obtain ⟨rfl | rfl | rfl, ha, hb⟩ := exists_of_isLinear_binary h
    all_goals exact Bool.and_eq_true_iff.mpr ⟨iha ha, ihb hb⟩

/-- A linear tree has a value everywhere. -/
theorem exists_exact_of_isLinear (h : t.isLinear = true) (ρ : String → ℚ) :
    ∃ v, t.exact .integral ρ = some v := by
  induction t with
  | number c => exact Decimal.exists_toRat? h
  | var x => exact ⟨ρ x, rfl⟩
  | unary op a => cases h
  | binary op a b iha ihb =>
    obtain ⟨hop, ha, hb⟩ := exists_of_isLinear_binary h
    obtain ⟨u, hu⟩ := iha ha
    obtain ⟨v, hv⟩ := ihb hb
    rw [Tree.exact, hu, hv]
    obtain rfl | rfl | rfl := hop
    all_goals exact ⟨_, rfl⟩

/-- What is built without rounding has the values of the operation. -/
theorem exact_of_combineBy_exact {s : Tree} {ρ : String → ℚ} {v : ℚ}
    (ht : (binary op a b).isRational = true) (hs : combineBy .exact op a b = .ok s)
    (hv : (binary op a b).exact .integral ρ = some v) : s.exact .integral ρ = some v :=
  Tree.exact_of_means
    ((fulfills_exact.combineWithin _ op a b s hs).means v (Tree.means_of_exact ht hv))

/-- The sum, the difference and the multiple of linear trees is built, and has their values, if all
numbers behind it are held. -/
theorem like_terms_exact (hop : IsLinearIn op a) (ha : a.isLinear = true) (hb : b.isLinear = true)
    (hheld : ∀ c, (rule op a b).Obtains c → c.IsHeld) :
    ∃ s, combine op a b = .ok s ∧ ∀ ρ : String → ℚ, ∃ v,
      (binary op a b).exact .integral ρ = some v ∧ s.exact .integral ρ = some v := by
  obtain ⟨s, hs, -⟩ := Operation.exists_combine_exact ⟨op, a, b⟩ hop ha hb hheld
  refine ⟨s, Arithmetic.exact_isPartOf_working.combineWithin _ _ _ _ _ hs, fun ρ => ?_⟩
  have hlinear := hop.isLinear ha hb
  obtain ⟨v, hv⟩ := exists_exact_of_isLinear hlinear ρ
  exact ⟨v, hv, exact_of_combineBy_exact (isRational_of_isLinear hlinear) hs hv⟩

/-- The sum of `x + -5` and `2` is `x - 3`. -/
theorem like_terms_exact_turned_sign :
    (∀ c, (rule .plus (binary .plus (var "x") (number (.finite true 5 0)))
      (number (.ofNat 2))).Obtains c → c.IsHeld) ∧
    ∃ s, combine .plus (binary .plus (var "x") (number (.finite true 5 0))) (number (.ofNat 2)) =
        .ok s ∧
      ∀ ρ : String → ℚ, ∃ v,
        (binary .plus (binary .plus (var "x") (number (.finite true 5 0)))
          (number (.ofNat 2))).exact .integral ρ = some v ∧ s.exact .integral ρ = some v := by
  have hheld : ∀ c, (rule .plus (binary .plus (var "x") (number (.finite true 5 0)))
      (number (.ofNat 2))).Obtains c → c.IsHeld := by
    have hasked : (rule .plus (binary .plus (var "x") (number (.finite true 5 0)))
        (number (.ofNat 2))).asked (Arithmetic.working.answer (combineBy .working)) =
          [.number (.sum (.ofNat 2) (.finite true 5 0)), .number (.opposite (.finite true 3 0)),
            .number (.kept (.ofNat 3)), .tree .minus (var "x") (number (.ofNat 3))] := by rfl
    rintro c (hc | ⟨d, ⟨e, he, hd⟩, hc⟩)
    · have hc : c = .sum (.ofNat 2) (.finite true 5 0) ∨ c = .opposite (.finite true 3 0) ∨
          c = .kept (.ofNat 3) := by
        simpa [Plan.Computes, hasked] using hc
      rcases hc with rfl | rfl | rfl
      all_goals decide +kernel
    · obtain ⟨op, l, r⟩ := e
      have he : op = .minus ∧ l = var "x" ∧ r = number (.ofNat 3) := by
        simpa [Plan.Calls, hasked, Operation.question] using he
      -- nothing is asked for behind `x - 3`
      obtain ⟨rfl, rfl, rfl⟩ := he
      rcases hd.cases_head with rfl | ⟨e, he, -⟩
      · cases hc
      · cases he
  exact ⟨hheld, like_terms_exact (.inl rfl) rfl rfl hheld⟩

end Reckon.Simplify
