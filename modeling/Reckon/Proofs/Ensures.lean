import Reckon.Proofs.Results
import Reckon.Simplify.Combine

/-!
# What plans ensure

`Ensures E p P`: if the questions of the plan `p` are answered as `E` expects, its result satisfies
`P`. What answers are like is left open: they may be exact numbers and trees of the same meaning, or
only be finite numbers and trees that no rule changes any more. In a run the trees come from the
rules, so an arithmetic that computes numbers as expected answers everything as expected if every
rule ensures what is expected of its tree (`Arithmetic.Fulfills`).
-/

namespace Reckon.Simplify

/-- What is expected of the answers to questions. -/
abbrev Expectation :=
  (q : Question) → q.Answer → Prop

def Ensures {α : Type} (E : Expectation) : Plan α → (α → Prop) → Prop
  | .done a, P => P a
  | .fail _, _ => True
  | .ask q next, P => ∀ a, E q a → Ensures E (next a) P

namespace Ensures
variable {E : Expectation} {α β : Type} {p : Plan α} {P Q : α → Prop}

theorem of_forall (h : ∀ a, P a) : Ensures E p P := by
  induction p with
  | done a => exact h a
  | fail f => trivial
  | ask q next ih => exact fun a _ => ih a

theorem mono (h : Ensures E p P) (hPQ : ∀ a, P a → Q a) : Ensures E p Q := by
  induction p with
  | done a => exact hPQ a h
  | fail f => trivial
  | ask q next ih => exact fun a ha => ih a (h a ha)

theorem and (h : Ensures E p P) (h' : Ensures E p Q) : Ensures E p fun a => P a ∧ Q a := by
  induction p with
  | done a => exact ⟨h, h'⟩
  | fail f => trivial
  | ask q next ih => exact fun a ha => ih a (h a ha) (h' a ha)

theorem forall_intro {ι : Sort _} {P : ι → α → Prop} (h : ∀ i, Ensures E p (P i)) :
    Ensures E p fun a => ∀ i, P i a := by
  induction p with
  | done a => exact h
  | fail f => trivial
  | ask q next ih => exact fun a ha => ih a fun i => h i a ha

theorem bind {f : α → Plan β} {R : β → Prop} (h : Ensures E p P)
    (hf : ∀ a, P a → Ensures E (f a) R) : Ensures E (p >>= f) R := by
  induction p with
  | done a => exact hf a h
  | fail e => trivial
  | ask q next ih => exact fun a ha => ih a (h a ha)

/-- Where more is expected of answers, no less is ensured. -/
theorem weaken {E' : Expectation} (hE : ∀ q a, E' q a → E q a) (h : Ensures E p P) :
    Ensures E' p P := by
  induction p with
  | done a => exact h
  | fail f => trivial
  | ask q next ih => exact fun a ha => ih a (h a (hE q a ha))

/-- A plan that is done has no other result. -/
theorem eq_of_done (p : Plan α) : Ensures E p fun a => ∀ b, p = .done b → a = b := by
  cases p with
  | done a => exact fun b h => Plan.done.inj h
  | fail f => trivial
  | ask q next => exact fun a _ => .of_forall fun c b h => by cases h

theorem ofExcept {r : Except Failure α} (h : ∀ a, P a) : Ensures E (Plan.ofExcept r) P := by
  cases r with
  | error f => trivial
  | ok a => exact h a

/-- A result keeps the promise of its plan when all answers were as expected. -/
theorem follow {answer : (q : Question) → Except Failure q.Answer}
    (hanswer : ∀ q a, answer q = .ok a → E q a) (h : Ensures E p P) {a : α}
    (ha : p.follow answer = .ok a) : P a := by
  induction p with
  | done b => cases ha; exact h
  | fail f => cases ha
  | ask q next ih =>
    obtain ⟨b, hb, hnext⟩ := bind_eq_ok_iff.mp ha
    exact ih b (h b (hanswer q b hb)) hnext

end Ensures

/-! ### Runs -/

namespace Arithmetic
variable {arith : Arithmetic} {E : Expectation}

/-- Numbers are computed as expected, and the rules build trees as expected. -/
structure Fulfills (arith : Arithmetic) (E : Expectation) : Prop where
  number : ∀ c a, arith.number c = .ok a → E (.number c) a
  integer : ∀ c r, arith.integer c = .ok r → E (.integer c) r
  rule : ∀ op a b, Ensures E (rule op a b) (E (.tree op a b))

namespace Fulfills

theorem answer (h : arith.Fulfills E) {combine : Combine}
    (hcombine : ∀ op a b s, combine op a b = .ok s → E (.tree op a b) s) (q : Question)
    (a : q.Answer) (ha : arith.answer combine q = .ok a) : E q a := by
  cases q with
  | number c => exact h.number c a ha
  | integer c => exact h.integer c a ha
  | tree op l r => exact hcombine op l r a ha

theorem combineWithin (h : arith.Fulfills E) (bound : Nat) (op : Binary) (a b s : Tree)
    (hs : combineWithin arith bound op a b = .ok s) : E (.tree op a b) s := by
  induction bound generalizing op a b s with
  | zero => cases hs
  | succ bound ih => exact (h.rule op a b).follow (h.answer ih) hs

/-- A run keeps the promise of its plan. -/
theorem run (h : arith.Fulfills E) {α : Type} {p : Plan α} {P : α → Prop} (hp : Ensures E p P)
    {a : α} (ha : p.run arith = .ok a) : P a :=
  hp.follow (h.answer fun op a b s => h.combineWithin _ op a b s) ha

end Fulfills

end Arithmetic

end Reckon.Simplify
