import Mathlib.Data.Set.Finite.Lattice
import Mathlib.Logic.Relation
import Reckon.Proofs.ExactArithmetic
import Reckon.Proofs.WeightRules

/-!
# Rules come to an end

An operation calls those that its rule asks for. The `measure` goes down with every call, so there
are finitely many calls behind each operation, the bound on rules applied inside each other is never
reached, and `combine` is what the rules say without any bound (`rules_terminate`).
-/

namespace Reckon

theorem Failure.IsNumeric.ne_tooComplex {f : Failure} (h : f.IsNumeric) : f ≠ .tooComplex := by
  rintro rfl
  exact h

namespace Simplify

/-- An operator with its operands. -/
structure Operation where
  op : Binary
  left : Tree
  right : Tree

namespace Operation

def question (c : Operation) : Question :=
  .tree c.op c.left c.right

def plan (c : Operation) : Plan Tree :=
  rule c.op c.left c.right

def measure (c : Operation) : Nat :=
  Simplify.measure c.op c.left c.right

end Operation

namespace Plan
variable {α : Type}

/-- The operation is asked for when the plan is run. -/
def Calls (p : Plan α) (c : Operation) : Prop :=
  c.question ∈ p.asked (Arithmetic.working.answer (combineBy .working))

/-- The operation is asked for when the plan is run, or for the sake of another one that is. -/
def LeadsTo (p : Plan α) (c : Operation) : Prop :=
  ∃ d, p.Calls d ∧ Relation.ReflTransGen (fun d c : Operation => d.plan.Calls c) d c

end Plan

/-! ### The bound -/

variable {op : Binary} {a b s : Tree} {arith : Arithmetic}

theorem fulfills_light (arith : Arithmetic) : arith.Fulfills Light where
  number _ _ _ := trivial
  integer _ _ _ := trivial
  rule op a b := (Descends.rule op a b).ensures

theorem light_answer (arith : Arithmetic) (bound : Nat) (q : Question) (a : q.Answer)
    (ha : arith.answer (combineWithin arith bound) q = .ok a) : Light q a :=
  (fulfills_light arith).answer ((fulfills_light arith).combineWithin bound) q a ha

/-- A bound above the measure is as good as another. -/
theorem combineWithin_eq (arith : Arithmetic) {n k : Nat} (hn : measure op a b < n)
    (hk : measure op a b < k) : combineWithin arith n op a b = combineWithin arith k op a b := by
  induction n generalizing op a b k with
  | zero => cases hn
  | succ n ih =>
    obtain ⟨k, rfl⟩ := Nat.exists_eq_add_one_of_ne_zero (Nat.ne_zero_of_lt hk)
    rw [combineWithin, combineWithin]
    refine (Descends.rule op a b).follow_congr (light_answer arith n) fun q hq => ?_
    cases q with
    | number c => rfl
    | integer c => rfl
    | tree op' l r =>
      have hq : measure op' l r < measure op a b := hq
      exact ih (by omega) (by omega)

theorem measure_lt_ruleBound (op : Binary) (a b : Tree) : measure op a b < ruleBound a b := by
  have hmeasure := measure_le op a b
  unfold ruleBound
  simp only
  generalize hn : a.size + b.size + 4 = n
  have hfour : 4 * n ≤ n * n := Nat.mul_le_mul_right n (by omega)
  calc measure op a b < 4 * n := by omega
    _ ≤ n * n := hfour
    _ ≤ n * n * n := Nat.le_mul_of_pos_right _ (by omega)
    _ ≤ n * n * n * n := Nat.le_mul_of_pos_right _ (by omega)

theorem combineWithin_eq_combineBy {n : Nat} (hn : measure op a b < n) :
    combineWithin arith n op a b = combineBy arith op a b :=
  combineWithin_eq arith hn (measure_lt_ruleBound op a b)

theorem light_combineBy (q : Question) (s : q.Answer)
    (hs : arith.answer (combineBy arith) q = .ok s) : Light q s :=
  (fulfills_light arith).answer
    (fun op a b s hs => (fulfills_light arith).combineWithin _ op a b s hs) q s hs

/-- The simplified tree is what the rule makes of simplified trees. -/
theorem combineBy_eq (arith : Arithmetic) (op : Binary) (a b : Tree) :
    combineBy arith op a b = (rule op a b).run arith := by
  rw [← combineWithin_eq_combineBy (Nat.lt_succ_self _), combineWithin, Plan.run]
  refine (Descends.rule op a b).follow_congr (light_answer arith _) fun q hq => ?_
  cases q with
  | number c => rfl
  | integer c => rfl
  | tree op' l r => exact combineWithin_eq_combineBy hq

/-! ### Failures -/

theorem failsOnly_number (c : Computation) :
    FailsOnly Failure.IsNumeric (Arithmetic.working.number c) :=
  (failsOnly_signal c.result).numeric

theorem failsOnly_integer (c : IntegerComputation) :
    FailsOnly Failure.IsNumeric (Arithmetic.working.integer c) := by
  have hdiv (ctx : Context) (x y : Decimal) :
      FailsOnly Failure.IsNumeric (liftM (Decimal.div ctx x y) : Except Failure Decimal) :=
    (failsOnly_liftM _).numeric
  cases c with
  | quotient x y => exact (hdiv .working x y).bind fun _ => failsOnly_pure _
  | half x => exact (hdiv .plain x .two).bind fun _ => failsOnly_pure _
  | root x => exact Numeric.failsOnly_sqrt.bind fun _ => failsOnly_pure _
  | power x y =>
    have hpower : FailsOnly Failure.IsNumeric (Numeric.power x y) := Numeric.failsOnly_power.numeric
    change FailsOnly Failure.IsNumeric (IntegerComputation.result (.power x y))
    rw [IntegerComputation.result]
    split
    · exact failsOnly_ok _
    · exact failsOnly_ok _
    · rename_i hf
      exact failsOnly_error.mpr (hpower _ hf)

/-- No rule fails but for the numbers in it. -/
theorem failsOnly_combineWithin {n : Nat} (hn : measure op a b < n) :
    FailsOnly Failure.IsNumeric (combineWithin .working n op a b) := by
  induction n generalizing op a b with
  | zero => cases hn
  | succ n ih =>
    rw [combineWithin]
    refine (Descends.rule op a b).failsOnly_follow (light_answer .working n) fun q hq => ?_
    cases q with
    | number c => exact failsOnly_number c
    | integer c => exact failsOnly_integer c
    | tree op' l r =>
      have hq : measure op' l r < measure op a b := hq
      exact ih (by omega)

theorem failsOnly_combine (op : Binary) (a b : Tree) :
    FailsOnly Failure.IsNumeric (combine op a b) :=
  failsOnly_combineWithin (measure_lt_ruleBound op a b)

/-! ### Functions -/

section
variable {α β : Type} {P : Failure → Prop} {t : Tree}

theorem failsOnly_run_bind {p : Plan α} {f : α → Plan β} (hp : FailsOnly P (p.run .working))
    (hf : ∀ a, FailsOnly P ((f a).run .working)) : FailsOnly P ((p >>= f).run .working) := by
  rw [Plan.run, Plan.bind_eq, Plan.follow_bind]
  exact hp.bind hf

theorem failsOnly_run_ofExcept (r : Except Signal α) :
    FailsOnly Failure.IsNumeric ((Plan.ofExcept (r.mapError .signal)).run .working) := by
  cases r with
  | error s => exact failsOnly_error.mpr trivial
  | ok a => exact failsOnly_ok a

theorem failsOnly_run_combine :
    FailsOnly Failure.IsNumeric ((Plan.combine op a b).run .working) :=
  (failsOnly_combine op a b).bind fun _ => failsOnly_ok _

theorem failsOnly_run_integer (c : IntegerComputation) :
    FailsOnly Failure.IsNumeric ((Plan.integer c).run .working) :=
  (failsOnly_integer c).bind fun _ => failsOnly_ok _

theorem failsOnly_run_kept (c : Decimal) :
    FailsOnly Failure.IsNumeric ((kept c).run .working) :=
  (failsOnly_number (.kept c)).bind fun _ => failsOnly_ok _

theorem failsOnly_run_sqrt (t : Tree) : FailsOnly Failure.IsNumeric ((sqrt t).run .working) := by
  fun_cases sqrt t with
  | case1 x =>
    refine failsOnly_run_bind (failsOnly_run_ofExcept (Decimal.zero.atMost x)) fun positive => ?_
    cases positive with
    | true =>
      refine failsOnly_run_bind (failsOnly_run_integer (.root x)) fun root => ?_
      cases root with
      | some root => exact failsOnly_run_kept root
      | none => exact failsOnly_ok _
    | false => exact failsOnly_ok _
  | case2 p n =>
    refine failsOnly_run_bind (failsOnly_run_integer _) fun half => ?_
    cases half with
    | some half => exact failsOnly_run_bind (failsOnly_run_kept half) fun _ => failsOnly_run_combine
    | none => exact failsOnly_ok _
  | case3 => exact failsOnly_ok _

theorem failsOnly_run_oneMinusSquare (t : Tree) :
    FailsOnly Failure.IsNumeric ((oneMinusSquare t).run .working) :=
  failsOnly_run_bind (failsOnly_run_combine) fun _ => failsOnly_run_combine

/-- No rule for a function fails but for the numbers in it. -/
theorem failsOnly_apply (op : Unary) (t : Tree) : FailsOnly Failure.IsNumeric (apply op t) := by
  have hroot (t : Tree) : FailsOnly Failure.IsNumeric ((oneMinusSquare t >>= sqrt).run .working) :=
    failsOnly_run_bind (failsOnly_run_oneMinusSquare t) failsOnly_run_sqrt
  unfold apply
  cases op with
  | sqrt => exact failsOnly_run_sqrt t
  | sin =>
    rw [unaryRule]
    unfold sin
    split
    · exact failsOnly_ok _
    · exact hroot _
    · exact failsOnly_ok _
  | cos =>
    rw [unaryRule]
    unfold cos
    split
    · exact failsOnly_ok _
    · exact hroot _
    · exact failsOnly_ok _
  | tan =>
    rw [unaryRule]
    unfold tan
    split
    · exact failsOnly_ok _
    · exact failsOnly_run_combine
    · exact failsOnly_ok _
  | cotan =>
    rw [unaryRule]
    unfold cotan
    split <;> exact failsOnly_ok _
  | acotan =>
    rw [unaryRule]
    unfold acotan
    split <;> exact failsOnly_ok _
  | ln =>
    rw [unaryRule]
    unfold ln
    split <;> exact failsOnly_ok _
  | exp =>
    rw [unaryRule]
    unfold exp
    split
    · exact failsOnly_ok _
    split <;> exact failsOnly_ok _
  | _ => exact failsOnly_ok _

end

/-! ### Calls -/

theorem Operation.question_injective : Function.Injective Operation.question := by
  rintro ⟨op, l, r⟩ ⟨op', l', r'⟩ h
  cases h
  rfl

theorem Plan.finite_calls {α : Type} (p : Plan α) : {c | p.Calls c}.Finite :=
  (List.finite_toSet _).preimage Operation.question_injective.injOn

/-- A call has a smaller measure. -/
theorem Operation.measure_lt {c d : Operation} (h : c.plan.Calls d) : d.measure < c.measure :=
  (Descends.rule c.op c.left c.right).ask_of_mem_asked light_combineBy h

/-- There are finitely many calls behind an operation. -/
theorem Operation.finite_calls (c : Operation) :
    {d | Relation.ReflTransGen (fun c d : Operation => c.plan.Calls d) c d}.Finite := by
  induction hn : c.measure using Nat.strong_induction_on generalizing c with
  | _ n ih =>
    subst hn
    have hcover : {d | Relation.ReflTransGen (fun c d : Operation => c.plan.Calls d) c d} ⊆
        {c} ∪ ⋃ e ∈ {e | c.plan.Calls e},
          {d | Relation.ReflTransGen (fun c d : Operation => c.plan.Calls d) e d} := by
      intro d hd
      rcases hd.cases_head with rfl | ⟨e, he, hd⟩
      · exact .inl rfl
      · exact .inr (Set.mem_biUnion he hd)
    refine Set.Finite.subset (.union (Set.finite_singleton c) ?_) hcover
    exact c.plan.finite_calls.biUnion fun e he => ih _ (Operation.measure_lt he) e rfl

theorem Plan.finite_leadsTo {α : Type} (p : Plan α) : {c | p.LeadsTo c}.Finite := by
  refine (p.finite_calls.biUnion fun d _ => d.finite_calls).subset ?_
  rintro c ⟨d, hd, hc⟩
  exact Set.mem_biUnion hd hc

/-- Calls go down in measure. So there are finitely many of them behind every operation and every
function, the rules need no bound, and no bound is reached. -/
theorem rules_terminate :
    (∀ c d : Operation, c.plan.Calls d → d.measure < c.measure) ∧
    (∀ op a b, combine op a b = (rule op a b).run .working ∧
      {c | (rule op a b).LeadsTo c}.Finite ∧ combine op a b ≠ .error .tooComplex) ∧
    ∀ op a, {c | (unaryRule op a).LeadsTo c}.Finite ∧ apply op a ≠ .error .tooComplex := by
  refine ⟨fun _ _ => Operation.measure_lt, fun op a b => ⟨combineBy_eq .working op a b, ?_, ?_⟩,
    fun op a => ⟨?_, ?_⟩⟩
  · exact Plan.finite_leadsTo _
  · exact fun h => (failsOnly_combine op a b _ h).ne_tooComplex rfl
  · exact Plan.finite_leadsTo _
  · exact fun h => (failsOnly_apply op a _ h).ne_tooComplex rfl

end Simplify

end Reckon
