import Reckon.Formula.CallStack
import Reckon.Proofs.ReaderSteps

/-!
# Call stacks that are too small

A call stack that is too small makes a computation fail as too complex and does nothing else to it
(`CallStack.StopsOrIs`); one with room for everything makes nothing fail. Of this kind is what is
read (`CallStack.stopsOrIs_read`), and whatever is put together from such computations.
-/

namespace Reckon.CallStack

variable {α β : Type} {stack : CallStack} {x y : Except Failure α}

/-- The computation comes to `y`, unless the call stack has too little room for it. -/
def StopsOrIs (stack : CallStack) (x y : Except Failure α) : Prop :=
  (stack.room.isSome = true ∧ x = .error .tooComplex) ∨ x = y

theorem StopsOrIs.refl (x : Except Failure α) : stack.StopsOrIs x x :=
  .inr rfl

@[simp] theorem stopsOrIs_boundless : boundless.StopsOrIs x y ↔ x = y := by
  constructor
  · rintro (⟨h, -⟩ | h)
    · cases h
    · exact h
  · exact .inr

theorem StopsOrIs.bind {f g : α → Except Failure β} (h : stack.StopsOrIs x y)
    (hfg : ∀ a, stack.StopsOrIs (f a) (g a)) : stack.StopsOrIs (x >>= f) (y >>= g) := by
  rcases h with ⟨hroom, rfl⟩ | rfl
  · exact .inl ⟨hroom, rfl⟩
  cases x with
  | error f => exact .refl _
  | ok a => exact hfg a

theorem StopsOrIs.of_ok {a : α} (h : stack.StopsOrIs x y) (hx : x = .ok a) : y = .ok a := by
  rcases h with ⟨-, h⟩ | rfl
  · rw [hx] at h
    cases h
  · exact hx

/-- What does not find room is not done. -/
theorem room_isSome_of_not_all {calls : Nat} (h : ¬stack.room.all (calls ≤ ·) = true) :
    stack.room.isSome = true := by
  cases hroom : stack.room with
  | none => simp [hroom] at h
  | some room => rfl

theorem StopsOrIs.within (h : stack.StopsOrIs x y) (calls : Nat) :
    stack.StopsOrIs (stack.within calls x) y := by
  unfold CallStack.within
  split
  · exact h
  · rename_i hall
    exact .inl ⟨room_isSome_of_not_all hall, rfl⟩

/-- Where a text is found too deep the stack is what is too small. -/
theorem stopsOrIs_read (calls : Nat) (s : List Char) :
    stack.StopsOrIs (stack.read calls s) (Formula.read s) := by
  rw [CallStack.read]
  cases hroom : stack.room with
  | none => exact .refl _
  | some room =>
    simp only
    split
    · exact .refl _
    have hsome : stack.room.isSome = true := by rw [hroom]; rfl
    have hle : room - calls ≤ maxDepth + 1 := by omega
    rcases Formula.stopsOrIs_readLevels hle s with h | h
    · rw [h]
      exact .inl ⟨hsome, rfl⟩
    · rw [h, ← Formula.read]
      cases hread : Formula.read s with
      | ok t => exact .refl _
      | error f =>
        cases f with
        | tooDeep => exact .inl ⟨hsome, rfl⟩
        | _ => exact .refl _

theorem stopsOrIs_readFormula (s : List Char) :
    stack.StopsOrIs (stack.readFormula s) (Formula.readFormula s) :=
  (StopsOrIs.refl _).bind fun _ => (StopsOrIs.refl _).bind fun _ => stopsOrIs_read 0 _

end Reckon.CallStack
