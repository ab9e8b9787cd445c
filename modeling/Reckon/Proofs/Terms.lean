import Reckon.Proofs.Ensures
import Reckon.Proofs.Failures

/-!
# Terms of a conversation

`Ensures` says what a plan yields if its questions are answered as expected. Where it matters as
well which questions are asked, there are `Terms`: questions that may be asked, what is expected of
the answers, and failures that a plan may have of its own. If a plan `Respects` them and the
questions are answered on these terms, the questions that were `asked` are among those that may be,
the plan fails on these terms only, and it comes to an end if every such question has an answer.
-/

namespace Reckon.Simplify

structure Terms where
  /-- The questions that may be asked. -/
  ask : Question → Prop
  /-- What is expected of the answers. -/
  answer : Expectation
  /-- The failures that a plan may have. -/
  fail : Failure → Prop

/-- Answered as expected, the plan asks and fails on the terms `T`, and its result satisfies `P`. -/
def Respects (T : Terms) {α : Type} : Plan α → (α → Prop) → Prop
  | .done a, P => P a
  | .fail f, _ => T.fail f
  | .ask q next, P => T.ask q ∧ ∀ a, T.answer q a → Respects T (next a) P

/-- The questions that somebody who follows the plan asks, in their order. -/
def Plan.asked {α : Type} (answer : (q : Question) → Except Failure q.Answer) :
    Plan α → List Question
  | done _ | fail _ => []
  | ask q next =>
    q :: match answer q with
      | .ok a => (next a).asked answer
      | .error _ => []

namespace Respects
variable {T T' : Terms} {α β : Type} {p : Plan α} {P Q : α → Prop}

theorem mono (h : Respects T p P) (hPQ : ∀ a, P a → Q a) : Respects T p Q := by
  induction p with
  | done a => exact hPQ a h
  | fail f => exact h
  | ask q next ih => exact ⟨h.1, fun a ha => ih a (h.2 a ha)⟩

theorem bind {f : α → Plan β} {R : β → Prop} (h : Respects T p P)
    (hf : ∀ a, P a → Respects T (f a) R) : Respects T (p >>= f) R := by
  induction p with
  | done a => exact hf a h
  | fail e => exact h
  | ask q next ih => exact ⟨h.1, fun a ha => ih a (h.2 a ha)⟩

/-- Where more may be asked, no less is respected. -/
theorem weaken (h : Respects T p P) (hask : ∀ q, T.ask q → T'.ask q)
    (hanswer : ∀ q a, T'.answer q a → T.answer q a) (hfail : ∀ f, T.fail f → T'.fail f) :
    Respects T' p P := by
  induction p with
  | done a => exact h
  | fail f => exact hfail f h
  | ask q next ih => exact ⟨hask q h.1, fun a ha => ih a (h.2 a (hanswer q a ha))⟩

theorem ensures (h : Respects T p P) : Ensures T.answer p P := by
  induction p with
  | done a => exact h
  | fail f => trivial
  | ask q next ih => exact fun a ha => ih a (h.2 a ha)

/-- What the answers ensure can be added. -/
theorem and_ensures (h : Respects T p P) (hQ : Ensures T.answer p Q) :
    Respects T p fun a => P a ∧ Q a := by
  induction p with
  | done a => exact ⟨h, hQ⟩
  | fail f => exact h
  | ask q next ih => exact ⟨h.1, fun a ha => ih a (h.2 a ha) (hQ a ha)⟩

/-! ### Following such a plan -/

section
variable {answer answer' : (q : Question) → Except Failure q.Answer}
  (hanswer : ∀ q a, answer q = .ok a → T.answer q a)
include hanswer

theorem ask_of_mem_asked (h : Respects T p P) {q : Question} (hq : q ∈ p.asked answer) :
    T.ask q := by
  induction p with
  | done a => cases hq
  | fail f => cases hq
  | ask q' next ih =>
    rw [Plan.asked] at hq
    rcases List.mem_cons.mp hq with rfl | hq
    · exact h.1
    · cases ha : answer q' with
      | error f =>
        rw [ha] at hq
        cases hq
      | ok a =>
        rw [ha] at hq
        exact ih a (h.2 a (hanswer q' a ha)) hq

/-- Only answers to questions that may be asked matter. -/
theorem follow_congr (h : Respects T p P) (heq : ∀ q, T.ask q → answer q = answer' q) :
    p.follow answer = p.follow answer' := by
  induction p with
  | done a => rfl
  | fail f => rfl
  | ask q next ih =>
    rw [Plan.follow, Plan.follow, ← heq q h.1]
    cases ha : answer q with
    | error f => rfl
    | ok a => exact ih a (h.2 a (hanswer q a ha))

theorem failsOnly_follow (h : Respects T p P)
    (hfail : ∀ q, T.ask q → FailsOnly T.fail (answer q)) : FailsOnly T.fail (p.follow answer) := by
  induction p with
  | done a => exact failsOnly_ok a
  | fail f => exact failsOnly_error.mpr h
  | ask q next ih =>
    rw [Plan.follow, failsOnly_bind]
    exact ⟨hfail q h.1, fun a ha => ih a (h.2 a (hanswer q a ha))⟩

end

end Respects

end Reckon.Simplify
