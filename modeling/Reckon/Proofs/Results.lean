import Mathlib.Data.List.Forall2
import Reckon.Failure

/-!
# Computations that may fail

When a computation in two steps succeeds, what is true of everything that a computation returns
(`Yields`), what a limit on levels leaves of it (`StopsOrIs`), and what one that also has a state
returns and leaves.
-/

namespace Reckon

variable {ε σ α β : Type}

/-- A computation in two steps succeeds if both do. -/
theorem bind_eq_ok_iff {x : Except ε α} {f : α → Except ε β} {b : β} :
    x >>= f = .ok b ↔ ∃ a, x = .ok a ∧ f a = .ok b := by
  constructor
  · intro h
    cases x with
    | error e => cases h
    | ok a => exact ⟨a, rfl, h⟩
  · rintro ⟨a, rfl, h⟩
    exact h

/-- A failure in other words is still one. -/
theorem mapError_eq_ok_iff {ε' : Type} {x : Except ε α} {f : ε → ε'} {a : α} :
    x.mapError f = .ok a ↔ x = .ok a := by
  cases x with
  | error e => exact ⟨(fun h => nomatch h), fun h => nomatch h⟩
  | ok b => exact ⟨fun h => congrArg _ (Except.ok.inj h), fun h => congrArg _ (Except.ok.inj h)⟩

theorem map_eq_ok_iff {x : Except ε α} {f : α → β} {b : β} :
    x.map f = .ok b ↔ ∃ a, x = .ok a ∧ f a = b := by
  constructor
  · intro h
    cases x with
    | error e => cases h
    | ok a => exact ⟨a, rfl, Except.ok.inj h⟩
  · rintro ⟨a, rfl, rfl⟩
    rfl

/-- Computations one after the other succeed if each of them does. -/
theorem mapM_eq_ok_iff {f : α → Except ε β} {l : List α} {r : List β} :
    l.mapM f = .ok r ↔ List.Forall₂ (fun a b => f a = .ok b) l r := by
  induction l generalizing r with
  | nil =>
    rw [List.mapM_nil, List.forall₂_nil_left_iff]
    exact ⟨fun h => (Except.ok.inj h).symm, fun h => h ▸ rfl⟩
  | cons a l ih =>
    rw [List.mapM_cons, bind_eq_ok_iff, List.forall₂_cons_left_iff]
    constructor
    · rintro ⟨b, hb, h⟩
      obtain ⟨r', hr', h⟩ := bind_eq_ok_iff.mp h
      exact ⟨b, r', hb, ih.mp hr', (Except.ok.inj h).symm⟩
    · rintro ⟨b, r', hb, hr', rfl⟩
      exact ⟨b, hb, bind_eq_ok_iff.mpr ⟨r', ih.mpr hr', rfl⟩⟩

theorem forM_eq_ok_iff {f : α → Except ε Unit} {l : List α} :
    l.forM f = .ok () ↔ ∀ a ∈ l, f a = .ok () := by
  induction l with
  | nil => exact iff_of_true rfl (by simp)
  | cons a l ih =>
    rw [List.forall_mem_cons, ← ih]
    change (f a >>= fun _ => l.forM f) = .ok () ↔ _
    rw [bind_eq_ok_iff]
    constructor
    · rintro ⟨⟨⟩, ha, hl⟩
      exact ⟨ha, hl⟩
    · rintro ⟨ha, hl⟩
      exact ⟨(), ha, hl⟩

theorem exists_of_forall₂ {R : α → β → Prop} {l : List α} {r : List β} (h : List.Forall₂ R l r)
    {b : β} (hb : b ∈ r) : ∃ a ∈ l, R a b := by
  induction h with
  | nil => cases hb
  | @cons a b' l r hR _ ih =>
    rcases List.mem_cons.mp hb with rfl | hb
    · exact ⟨a, List.mem_cons_self .., hR⟩
    · obtain ⟨a', ha', hR'⟩ := ih hb
      exact ⟨a', List.mem_cons_of_mem a ha', hR'⟩

theorem ofExcept_eq (x : Except ε α) : (MonadExcept.ofExcept x : Except ε α) = x := by
  cases x with
  | error e => rfl
  | ok a => rfl

/-! ### What is true of results -/

/-- Whatever the computation returns satisfies `P`. -/
def Yields (P : α → Prop) (r : Except ε α) : Prop :=
  ∀ a, r = .ok a → P a

section
variable {P : α → Prop} {Q : β → Prop} {r r' : Except ε α} {a : α}

@[simp] theorem yields_ok : Yields P (.ok a : Except ε α) ↔ P a := by
  constructor
  · intro h
    exact h a rfl
  · rintro h _ ⟨⟩
    exact h

@[simp] theorem yields_pure : Yields P (pure a : Except ε α) ↔ P a :=
  yields_ok

@[simp] theorem yields_error (e : ε) : Yields P (.error e) :=
  fun _ h => nomatch h

@[simp] theorem yields_throw (e : ε) : Yields P (throw e : Except ε α) :=
  fun _ h => nomatch h

theorem Yields.bind {next : α → Except ε β} (h : Yields P r)
    (hnext : ∀ a, P a → Yields Q (next a)) : Yields Q (r >>= next) := by
  intro b hb
  obtain ⟨a, ha, hb⟩ := bind_eq_ok_iff.mp hb
  exact hnext a (h a ha) b hb

/-- Nothing need be known about the first step. -/
theorem yields_bind {next : α → Except ε β} (hnext : ∀ a, Yields Q (next a)) :
    Yields Q (r >>= next) :=
  Yields.bind (P := fun _ => True) (fun _ _ => trivial) fun a _ => hnext a

@[simp] theorem yields_ite {c : Prop} [Decidable c] :
    Yields P (if c then r else r') ↔ (c → Yields P r) ∧ (¬c → Yields P r') := by
  split <;> simp [*]

/-- A computation that is not gone on with when it is found to be wrong. -/
theorem yields_guarded {c : Prop} [Decidable c] {e : ε} (h : Yields P r) :
    Yields P (if c then .error e else r) :=
  yields_ite.mpr ⟨fun _ => yields_error e, fun _ => h⟩

@[simp] theorem yields_mapError {ε' : Type} {f : ε → ε'} :
    Yields P (r.mapError f) ↔ Yields P r := by
  simp only [Yields, mapError_eq_ok_iff]

end

/-! ### With a limit -/

/-- The computation comes to `y`, unless it stops because something is too deep. -/
def StopsOrIs {α : Type} (x y : Except Failure α) : Prop :=
  x = .error .tooDeep ∨ x = y

theorem StopsOrIs.bind {α β : Type} {x y : Except Failure α} {f g : α → Except Failure β}
    (h : StopsOrIs x y) (hfg : ∀ a, StopsOrIs (f a) (g a)) : StopsOrIs (x >>= f) (y >>= g) := by
  rcases h with rfl | rfl
  · exact .inl rfl
  cases x with
  | error e => exact .inr rfl
  | ok a => exact hfg a

theorem StopsOrIs.of_ok {α : Type} {x y : Except Failure α} {a : α} (h : StopsOrIs x y)
    (hx : x = .ok a) : y = .ok a := by
  rcases h with h | rfl
  · rw [h] at hx
    cases hx
  · exact hx

/-! ### With a state -/

theorem run_bind (call : ExceptT ε (StateM σ) α) (next : α → ExceptT ε (StateM σ) β) (s : σ) :
    (call >>= next).run s =
      match call.run s with
      | (.ok a, s') => (next a).run s'
      | (.error e, s') => (.error e, s') := by
  change (ExceptT.bindCont next (call.run s).1 (call.run s).2) = _
  rcases call.run s with ⟨_ | a, s'⟩
  · rfl
  · rfl

/-- What is made of the result of a call changes nothing else. -/
theorem run_bind_pure (call : ExceptT ε (StateM σ) α) (f : α → β) (s : σ) :
    (call >>= fun a => pure (f a)).run s = ((call.run s).1.map f, (call.run s).2) := by
  rw [run_bind]
  rcases call.run s with ⟨_ | a, s'⟩
  · rfl
  · rfl

theorem run_ofExcept (x : Except ε α) (s : σ) :
    (MonadExcept.ofExcept x : ExceptT ε (StateM σ) α).run s = (x, s) := by
  cases x with
  | error e => rfl
  | ok a => rfl

end Reckon
