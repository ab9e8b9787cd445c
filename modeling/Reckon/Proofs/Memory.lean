import Reckon.Proofs.CallStacks
import Reckon.Proofs.Results
import Reckon.Proofs.SideBySide
import Reckon.Session.Evaluator

/-!
# The memory of an evaluator

An evaluator remembers the trees of the texts that it has read. The memory holds nothing but what
the reader makes of its texts (`IsSound`), so a call comes to what it would come to if every text
were read anew (`Comes`, `run_evaluate`), unless the call stack is too small for it. On a stack that
is too small a memory can save a call, and it can do no more: where a new evaluator has enough room,
one that remembers more does the same (`Follows`). After any requests the next one is answered as by
a new evaluator with the unit that was selected last, or where that one is too complex as with room
for everything (`run_perform_after`).
-/

namespace Reckon

namespace Evaluator

/-! ### What the memory holds -/

/-- The trees in the memory are those of their texts. -/
def IsSound (e : Evaluator) : Prop :=
  ∀ key tree, (key, tree) ∈ e.memory →
    Formula.validate key = .ok () ∧ Formula.read key = .ok tree

/-- The evaluator after one more event. -/
def noted (e : Evaluator) (event : Event) : Evaluator :=
  { e with events := event :: e.events }

/-- The evaluator that has read one more text. -/
def withTree (e : Evaluator) (key : List Char) (tree : Tree) : Evaluator :=
  { e with
    memory := (key, tree) :: e.memory
    readCount := e.readCount + 1
    reported := key :: e.reported }

/-- What an evaluator becomes by reading: it forgets nothing and remembers nothing wrong. -/
structure Extends (e e' : Evaluator) : Prop where
  unit : e'.unit = e.unit
  sound : e.IsSound → e'.IsSound
  remembered : ∀ key tree, e.remembered? key = some tree → e'.remembered? key = some tree

namespace Extends
variable {e e' e'' : Evaluator}

theorem refl (e : Evaluator) : e.Extends e :=
  ⟨rfl, id, fun _ _ => id⟩

theorem trans (h : e.Extends e') (h' : e'.Extends e'') : e.Extends e'' :=
  ⟨h'.unit.trans h.unit, fun he => h'.sound (h.sound he),
    fun key tree hkey => h'.remembered key tree (h.remembered key tree hkey)⟩

end Extends

theorem isSound_new (unit : AngleUnit) : (new unit).IsSound := by
  intro key tree hmem
  cases hmem

theorem mem_of_remembered? {e : Evaluator} {key : List Char} {tree : Tree}
    (h : e.remembered? key = some tree) : (key, tree) ∈ e.memory := by
  rw [remembered?, Option.map_eq_some_iff] at h
  obtain ⟨⟨key', tree'⟩, hfind, rfl⟩ := h
  have hkey : key' = key := by simpa using List.find?_some hfind
  rw [← hkey]
  exact List.mem_of_find?_eq_some hfind

@[simp] theorem remembered?_noted (e : Evaluator) (event : Event) (key : List Char) :
    (e.noted event).remembered? key = e.remembered? key :=
  rfl

theorem remembered?_withTree (e : Evaluator) (key key' : List Char) (tree : Tree) :
    (e.withTree key tree).remembered? key' =
      if key = key' then some tree else e.remembered? key' := by
  unfold remembered? withTree
  by_cases h : key = key' <;> simp [h]

theorem extends_noted (e : Evaluator) (event : Event) : e.Extends (e.noted event) :=
  ⟨rfl, id, fun _ _ => id⟩

/-- A text that was not remembered takes no place in the memory from another one. -/
theorem extends_withTree {e : Evaluator} {key : List Char} {tree : Tree}
    (hkey : e.remembered? key = none) (hv : Formula.validate key = .ok ())
    (hr : Formula.read key = .ok tree) : e.Extends (e.withTree key tree) := by
  refine ⟨rfl, ?_, ?_⟩
  · intro he key' tree' hmem
    rcases List.mem_cons.mp hmem with heq | hmem
    · obtain ⟨rfl, rfl⟩ := Prod.mk.inj heq
      exact ⟨hv, hr⟩
    · exact he key' tree' hmem
  · intro key' tree' h
    have hne : key ≠ key' := by
      rintro rfl
      rw [hkey] at h
      cases h
    rwa [remembered?_withTree, if_neg hne]

/-! ### Calls that only read -/

section
variable {α β : Type}

/-- However much is remembered already, the call comes to `r`, or stops because the call stack is
too small. -/
def Comes (stack : CallStack) (call : Call α) (r : Except Failure α) : Prop :=
  ∀ e : Evaluator, e.IsSound →
    ∃ r' e', call.run e = (r', e') ∧ stack.StopsOrIs r' r ∧ e.Extends e'

namespace Comes
variable {stack : CallStack}

theorem pure (a : α) : Comes stack (pure a) (pure a) :=
  fun e _ => ⟨_, e, rfl, .refl _, .refl e⟩

theorem throw (f : Failure) : Comes stack (throw f : Call α) (throw f) :=
  fun e _ => ⟨_, e, rfl, .refl _, .refl e⟩

theorem bind {call : Call α} {next : α → Call β} {r : Except Failure α}
    {f : α → Except Failure β} (h : Comes stack call r) (hnext : ∀ a, Comes stack (next a) (f a)) :
    Comes stack (call >>= next) (r >>= f) := by
  intro e he
  obtain ⟨r', e₁, hrun, hr, hext⟩ := h e he
  rw [run_bind, hrun]
  cases r' with
  | error failure => exact ⟨_, e₁, rfl, hr.bind fun a => .refl (f a), hext⟩
  | ok a =>
    obtain rfl : r = .ok a := hr.of_ok rfl
    obtain ⟨r'', e₂, hrun', hr', hext'⟩ := hnext a e₁ (hext.sound he)
    exact ⟨r'', e₂, hrun', hr', hext.trans hext'⟩

end Comes

end

/-- The second evaluator remembers whatever the first one does, and none remembers anything wrong.
-/
structure Below (e e' : Evaluator) : Prop where
  unit : e.unit = e'.unit
  sound : e.IsSound
  sound' : e'.IsSound
  remembered : ∀ key tree, e.remembered? key = some tree → e'.remembered? key = some tree

namespace Below
variable {e e' e'' : Evaluator}

theorem refl (he : e.IsSound) : e.Below e :=
  ⟨rfl, he, he, fun _ _ h => h⟩

theorem new (he : e.IsSound) : (new e.unit).Below e :=
  ⟨rfl, isSound_new _, he, fun _ _ h => nomatch h⟩

theorem trans_extends (h : e.Below e') (hext : e'.Extends e'') : e.Below e'' :=
  ⟨h.unit.trans hext.unit.symm, h.sound, hext.sound h.sound',
    fun key tree hkey => hext.remembered key tree (h.remembered key tree hkey)⟩

end Below

section
variable {α β : Type}

/-- With more in the memory the second call comes to what the first one comes to, unless the call
stack is too small for the first one, and there is still more in the memory. -/
structure Follows (stack : CallStack) (call call' : Call α) : Prop where
  grows {e' : Evaluator} : e'.IsSound → e'.Extends (call'.run e').2
  step {e e' : Evaluator} : e.Below e' →
    stack.StopsOrIs (call.run e).1 (call'.run e').1 ∧ (call.run e).2.Below (call'.run e').2

namespace Follows
variable {stack : CallStack}

theorem pure (a : α) : Follows stack (pure a) (pure a) :=
  ⟨fun _ => .refl _, fun h => ⟨.refl _, h⟩⟩

theorem throw (f : Failure) : Follows stack (throw f : Call α) (throw f) :=
  ⟨fun _ => .refl _, fun h => ⟨.refl _, h⟩⟩

theorem bind {call call' : Call α} {next next' : α → Call β} (h : Follows stack call call')
    (hnext : ∀ a, Follows stack (next a) (next' a)) :
    Follows stack (call >>= next) (call' >>= next') := by
  -- what the second call does where the first one has stopped
  have hrest : ∀ {e' : Evaluator}, e'.IsSound →
      (call'.run e').2.Extends ((call' >>= next').run e').2 := by
    intro e' he'
    have hsound := (h.grows he').sound he'
    rw [run_bind]
    generalize call'.run e' = p at hsound
    obtain ⟨_ | a, e₁⟩ := p
    · exact .refl _
    · exact (hnext a).grows hsound
  refine ⟨fun he' => (h.grows he').trans (hrest he'), fun {e e'} hbelow => ?_⟩
  obtain ⟨hanswer, hbelow'⟩ := h.step hbelow
  have hgrown := hrest hbelow.sound'
  rw [run_bind] at hgrown
  rw [run_bind, run_bind]
  generalize call.run e = p, call'.run e' = p' at hanswer hbelow' hgrown ⊢
  obtain ⟨r, e₁⟩ := p
  obtain ⟨r', e₁'⟩ := p'
  rcases hanswer with ⟨hroom, hr⟩ | hr
  · obtain rfl : r = .error .tooComplex := hr
    exact ⟨.inl ⟨hroom, rfl⟩, hbelow'.trans_extends hgrown⟩
  obtain rfl : r = r' := hr
  cases r with
  | error f => exact ⟨.refl _, hbelow'⟩
  | ok a => exact (hnext a).step hbelow'

end Follows

end

/-! ### Reading -/

section
variable {stack : CallStack} {calls : Nat}

/-- A text is recalled by its prepared form, or it is read anew and remembered. -/
theorem run_treeAt (stack : CallStack) (calls : Nat) (s : List Char) (e : Evaluator) :
    (treeAt stack calls s).run e =
      match Formula.prepare s with
      | .error f => (.error f, e)
      | .ok key =>
        match e.remembered? key with
        | some t => (.ok t, e.noted (.recalled key))
        | none =>
          match Formula.validate key >>= fun _ => stack.read calls key with
          | .error f => (.error f, e.noted (.readAnew key))
          | .ok t => (.ok t, (e.noted (.readAnew key)).withTree key t) := by
  rw [treeAt, run_bind, run_ofExcept]
  cases Formula.prepare s with
  | error f => rfl
  | ok key =>
    simp only
    rw [run_bind]
    change (match e.remembered? key with
      | some t => note (.recalled key) >>= fun _ => pure t
      | none => note (.readAnew key) >>= fun _ =>
        MonadExcept.ofExcept (Formula.validate key) >>= fun _ =>
        MonadExcept.ofExcept (stack.read calls key) >>= fun t =>
        remember key t >>= fun _ => pure t : Call Tree).run e = _
    cases e.remembered? key with
    | some t => rfl
    | none =>
      cases Formula.validate key with
      | error f => rfl
      | ok _ =>
        cases stack.read calls key with
        | error f => rfl
        | ok t => rfl

/-- What is remembered is what is read. -/
theorem IsSound.read_eq {e : Evaluator} (he : e.IsSound) {key : List Char} {t : Tree}
    (h : e.remembered? key = some t) :
    (Formula.validate key >>= fun _ => Formula.read key) = .ok t := by
  obtain ⟨hv, hr⟩ := he key t (mem_of_remembered? h)
  rw [hv]
  exact hr

/-- Reading with a sound memory is reading, and what has been read is remembered. -/
theorem exists_of_run_treeAt {e : Evaluator} (he : e.IsSound) (stack : CallStack) (calls : Nat)
    (s : List Char) :
    ∃ r e', (treeAt stack calls s).run e = (r, e') ∧
      stack.StopsOrIs r (Formula.readFormula s) ∧ e.Extends e' ∧
      ∀ key t, Formula.prepare s = .ok key →
        (Formula.validate key >>= fun _ => stack.read calls key) = .ok t →
          e'.remembered? key = some t := by
  rw [run_treeAt, Formula.readFormula]
  cases hp : Formula.prepare s with
  | error f => exact ⟨_, e, rfl, .refl _, .refl e, fun _ _ h => nomatch h⟩
  | ok key =>
    change ∃ r e', _ ∧
      stack.StopsOrIs r (Formula.validate key >>= fun _ => Formula.read key) ∧ _ ∧ _
    have hstops : stack.StopsOrIs (Formula.validate key >>= fun _ => stack.read calls key)
        (Formula.validate key >>= fun _ => Formula.read key) :=
      (CallStack.StopsOrIs.refl _).bind fun _ => CallStack.stopsOrIs_read calls key
    cases hkey : e.remembered? key with
    | some t =>
      rw [he.read_eq hkey] at hstops ⊢
      simp only [hkey]
      refine ⟨_, _, rfl, .refl _, extends_noted e _, ?_⟩
      rintro key' t' ⟨⟩ hread
      obtain rfl := Except.ok.inj (hstops.of_ok hread)
      exact hkey
    | none =>
      cases hread : Formula.validate key >>= fun _ => stack.read calls key with
      | error f =>
        rw [hread] at hstops
        simp only [hkey, hread]
        refine ⟨_, _, rfl, hstops, extends_noted e _, ?_⟩
        rintro key' t' ⟨⟩ hread'
        rw [hread] at hread'
        cases hread'
      | ok t =>
        rw [hread] at hstops
        simp only [hkey, hread]
        obtain ⟨⟨⟩, hv, hr⟩ := bind_eq_ok_iff.mp (hstops.of_ok rfl)
        refine ⟨_, _, rfl, hstops, (extends_noted e _).trans (extends_withTree hkey hv hr), ?_⟩
        rintro key' t' ⟨⟩ hread'
        obtain rfl := Except.ok.inj (hread.symm.trans hread')
        rw [remembered?_withTree, if_pos rfl]

theorem Comes.treeAt (s : List Char) :
    Comes stack (treeAt stack calls s) (Formula.readFormula s) := by
  intro e he
  obtain ⟨r, e', hrun, hr, hext, -⟩ := exists_of_run_treeAt he stack calls s
  exact ⟨r, e', hrun, hr, hext⟩

namespace Below
variable {e e' : Evaluator} {key : List Char}

theorem noted (h : e.Below e') (event event' : Event) : (e.noted event).Below (e'.noted event') :=
  ⟨h.unit, h.sound, h.sound', h.remembered⟩

/-- The first evaluator reads what the second one remembers already, or both read it. -/
theorem withTree (h : e.Below e') {t : Tree} (hkey : e.remembered? key = none)
    (hread : (Formula.validate key >>= fun _ => Formula.read key) = .ok t) :
    (e'.remembered? key = some t → (e.withTree key t).Below e') ∧
      (e'.remembered? key = none → (e.withTree key t).Below (e'.withTree key t)) := by
  obtain ⟨⟨⟩, hv, hr⟩ := bind_eq_ok_iff.mp hread
  have hsound := (extends_withTree hkey hv hr).sound h.sound
  constructor
  · intro hkey'
    refine ⟨h.unit, hsound, h.sound', fun key' t' h' => ?_⟩
    rw [remembered?_withTree] at h'
    split at h'
    · rename_i heq
      rwa [← heq, ← h']
    · exact h.remembered key' t' h'
  · intro hkey'
    refine ⟨h.unit, hsound, (extends_withTree hkey' hv hr).sound h.sound', fun key' t' h' => ?_⟩
    rw [remembered?_withTree] at h' ⊢
    split at h'
    · rename_i heq
      rwa [if_pos heq]
    · rename_i hne
      rw [if_neg hne]
      exact h.remembered key' t' h'

end Below

/-- The same text at the same place. -/
theorem Follows.treeAt (s : List Char) :
    Follows stack (treeAt stack calls s) (treeAt stack calls s) := by
  refine ⟨fun {e'} he' => ?_, fun {e e'} hbelow => ?_⟩
  · obtain ⟨r, e₁, hrun, -, hext, -⟩ := exists_of_run_treeAt he' stack calls s
    rwa [hrun]
  rw [run_treeAt, run_treeAt]
  cases Formula.prepare s with
  | error f => exact ⟨.refl _, hbelow⟩
  | ok key =>
    simp only
    cases hkey : e.remembered? key with
    | some t =>
      rw [hbelow.remembered key t hkey]
      exact ⟨.refl _, hbelow.noted ..⟩
    | none =>
      have hstops : stack.StopsOrIs (Formula.validate key >>= fun _ => stack.read calls key)
          (Formula.validate key >>= fun _ => Formula.read key) :=
        (CallStack.StopsOrIs.refl _).bind fun _ => CallStack.stopsOrIs_read calls key
      generalize (Formula.validate key >>= fun _ => stack.read calls key) = r at hstops ⊢
      cases hkey' : e'.remembered? key with
      | some t =>
        rw [hbelow.sound'.read_eq hkey'] at hstops
        rcases hstops with ⟨hroom, rfl⟩ | rfl
        · exact ⟨.inl ⟨hroom, rfl⟩, hbelow.noted ..⟩
        · have hread := hbelow.sound'.read_eq hkey'
          exact ⟨.refl _, ((hbelow.noted ..).withTree hkey hread).1 hkey'⟩
      | none =>
        cases r with
        | error f => exact ⟨.refl _, hbelow.noted ..⟩
        | ok t =>
          exact ⟨.refl _, ((hbelow.noted ..).withTree hkey (hstops.of_ok rfl)).2 hkey'⟩

end

/-! ### Evaluating -/

section
variable {stack : CallStack} {unit : AngleUnit} {bindings : Bindings}

theorem isCarried_comes :
    IsCarried (m := Call) (n := Except Failure) fun _ => Comes stack where
  pure := .pure
  throw := .throw
  bind := .bind

theorem isCarried_follows : IsCarried (m := Call) (n := Call) fun _ => Follows stack where
  pure := .pure
  throw := .throw
  bind := .bind

theorem Comes.within {x : Call Decimal} {r : Except Failure Decimal} (h : Comes stack x r)
    (calls : Nat) : Comes stack (stack.within calls x) r := by
  unfold CallStack.within
  split
  · exact h
  · rename_i hall
    exact fun e _ => ⟨_, e, rfl, .inl ⟨CallStack.room_isSome_of_not_all hall, rfl⟩, .refl e⟩

theorem Follows.within {x y : Call Decimal} (h : Follows stack x y) (calls : Nat) :
    Follows stack (stack.within calls x) (stack.within calls y) := by
  unfold CallStack.within
  split
  · exact h
  · exact .throw _

variable [Binary64.Library]

theorem Comes.valueAt (levels : Nat) (resolving : List String) (t : Tree) :
    Comes stack (t.valueAt stack (Evaluator.treeAt stack) unit bindings levels resolving)
      (t.valueLevels Formula.readFormula unit bindings levels resolving) :=
  isCarried_comes.valueAt (fun calls _ _ h => h.within calls) (fun _ => .treeAt) levels resolving t

theorem run_evaluate_eq (bindings : Bindings) (s : List Char) (e : Evaluator) :
    (evaluate bindings s stack).run e =
      (Formula.evaluateOn stack (Evaluator.treeAt stack) e.unit bindings s).run e := by
  have hget : (get : Call Evaluator).run e = (.ok e, e) := rfl
  rw [evaluate, run_bind, hget]

theorem Follows.evaluate (stack : CallStack) (bindings : Bindings) (s : List Char) :
    Follows stack (Evaluator.evaluate bindings s stack) (Evaluator.evaluate bindings s stack) := by
  have hunit : ∀ unit : AngleUnit,
      Follows stack (Formula.evaluateOn stack (Evaluator.treeAt stack) unit bindings s)
        (Formula.evaluateOn stack (Evaluator.treeAt stack) unit bindings s) := fun unit =>
    isCarried_follows.evaluateOn (fun calls _ _ h => h.within calls) (fun _ => .treeAt) s
  constructor
  · intro e' he'
    rw [run_evaluate_eq]
    exact (hunit e'.unit).grows he'
  · intro e e' hbelow
    rw [run_evaluate_eq, run_evaluate_eq, ← hbelow.unit]
    exact (hunit e.unit).step hbelow

end

/-- A formula has the value that it has with every text read anew, unless the call stack is too
small. What has been read is remembered. -/
theorem run_evaluate [Binary64.Library] {e : Evaluator} (he : e.IsSound) (stack : CallStack)
    (bindings : Bindings) (s : List Char) :
    ∃ r e', (evaluate bindings s stack).run e = (r, e') ∧
      stack.StopsOrIs r (Formula.evaluate e.unit bindings s) ∧ e.Extends e' ∧
      ∀ key t, Formula.prepare s = .ok key → stack.readFormula s = .ok t →
        e'.remembered? key = some t := by
  obtain ⟨r, e₁, hrun, hr, hext, hkey⟩ := exists_of_run_treeAt he stack 0 s
  have hkept : ∀ key t, Formula.prepare s = .ok key → stack.readFormula s = .ok t →
      e₁.remembered? key = some t := by
    intro key t hp hread
    rw [CallStack.readFormula, hp] at hread
    exact hkey key t hp hread
  rw [run_evaluate_eq, Formula.evaluate, Formula.evaluateWith, Formula.evaluateOn, run_bind, hrun]
  cases r with
  | error f => exact ⟨_, e₁, rfl, hr.bind fun t => .refl _, hext, hkept⟩
  | ok t =>
    rw [hr.of_ok rfl]
    obtain ⟨r', e₂, hrun', hr', hext'⟩ := Comes.valueAt (maxDepth + 1) [] t e₁ (hext.sound he)
    exact ⟨r', e₂, hrun', hr', hext.trans hext',
      fun key t hp hread => hext'.remembered key t (hkept key t hp hread)⟩

/-! ### Requests -/

/-- What an evaluator can be asked for. -/
inductive Request where
  | evaluate (bindings : Bindings) (s : List Char)
  | parse (s : List Char)
  | selectUnit (name : String)
  | clear

inductive Reply where
  | value (a : Decimal)
  | tree (t : Tree)
  | done

namespace Request
variable [Binary64.Library]

def perform (request : Request) (stack : CallStack := .boundless) : Call Reply :=
  match request with
  | evaluate bindings s => do return .value (← Evaluator.evaluate bindings s stack)
  | parse s => do return .tree (← Evaluator.tree s stack)
  | selectUnit name => do
    Evaluator.selectUnit name
    return .done
  | clear => do
    Evaluator.clear
    return .done

/-- The unit that is selected after the request: a name that is none selects nothing. -/
def select (unit : AngleUnit) : Request → AngleUnit
  | selectUnit name => ((AngleUnit.read name).toOption).getD unit
  | _ => unit

/-- What a request comes to with a unit of angles and nothing remembered. -/
def answer (unit : AngleUnit) : Request → Except Failure Reply
  | evaluate bindings s => do return .value (← Formula.evaluate unit bindings s)
  | parse s => do return .tree (← Formula.readFormula s)
  | selectUnit name => do
    let _ ← AngleUnit.read name
    return .done
  | clear => return .done

end Request

/-- The evaluator after the requests, whether they succeed or fail. -/
def after [Binary64.Library] (requests : List Request) (e : Evaluator)
    (stack : CallStack := .boundless) : Evaluator :=
  requests.foldl (fun e request => ((request.perform stack).run e).2) e

theorem run_selectUnit (name : String) (e : Evaluator) :
    (selectUnit name).run e =
      match AngleUnit.read name with
      | .ok unit => (.ok (), { e with unit := unit })
      | .error f => (.error f, e) := by
  rw [selectUnit, run_bind, run_ofExcept]
  cases AngleUnit.read name with
  | error f => rfl
  | ok unit => rfl

theorem isSound_clear (e : Evaluator) : IsSound { e with memory := [] } := by
  intro key tree hmem
  cases hmem

section
variable [Binary64.Library] {e e' : Evaluator}

/-- One request: the memory stays sound, and the answer is the one without it, unless the call stack
is too small. -/
theorem run_perform (he : e.IsSound) (stack : CallStack) (request : Request) :
    ∃ r e', (request.perform stack).run e = (r, e') ∧
      stack.StopsOrIs r (request.answer e.unit) ∧ e'.IsSound ∧ e'.unit = request.select e.unit := by
  cases request with
  | evaluate bindings s =>
    obtain ⟨r, e', hrun, hr, hext, -⟩ := run_evaluate he stack bindings s
    refine ⟨_, e', ?_, hr.bind fun a => .refl (.ok (Reply.value a)), hext.sound he, hext.unit⟩
    rw [Request.perform, run_bind, hrun]
    cases r with
    | error f => rfl
    | ok a => rfl
  | parse s =>
    obtain ⟨r, e', hrun, hr, hext, -⟩ := exists_of_run_treeAt he stack 0 s
    refine ⟨_, e', ?_, hr.bind fun t => .refl (.ok (Reply.tree t)), hext.sound he, hext.unit⟩
    rw [Request.perform, tree, run_bind, hrun]
    cases r with
    | error f => rfl
    | ok t => rfl
  | selectUnit name =>
    rw [Request.perform, Request.answer, Request.select, run_bind, run_selectUnit]
    cases AngleUnit.read name with
    | error f => exact ⟨_, e, rfl, .refl _, he, rfl⟩
    | ok unit => exact ⟨_, { e with unit := unit }, rfl, .refl _, he, rfl⟩
  | clear => exact ⟨_, { e with memory := [] }, rfl, .refl _, isSound_clear e, rfl⟩

/-- Any number of requests. -/
theorem isSound_after (he : e.IsSound) (stack : CallStack) (requests : List Request) :
    (after requests e stack).IsSound ∧
      (after requests e stack).unit = requests.foldl Request.select e.unit := by
  induction requests generalizing e with
  | nil => exact ⟨he, rfl⟩
  | cons request requests ih =>
    obtain ⟨r, e', hrun, -, hsound, hunit⟩ := run_perform he stack request
    have hnext := ih hsound
    rw [hunit] at hnext
    rwa [after, List.foldl_cons, List.foldl_cons, hrun]

/-- Of two evaluators the one that remembers more stops at no request at which the other one does
not, and says the same. -/
theorem Below.fst_run_perform (h : e.Below e') (stack : CallStack) (request : Request) :
    stack.StopsOrIs ((request.perform stack).run e).1 ((request.perform stack).run e').1 := by
  cases request with
  | evaluate bindings s =>
    exact (((Follows.evaluate stack bindings s).bind fun a => .pure (Reply.value a)).step h).1
  | parse s => exact (((Follows.treeAt s).bind fun t => .pure (Reply.tree t)).step h).1
  | selectUnit name =>
    right
    rw [Request.perform, run_bind, run_bind, run_selectUnit, run_selectUnit]
    cases AngleUnit.read name with
    | error f => rfl
    | ok unit => rfl
  | clear => exact .refl _

/-- After any requests a formula has the value that it has with nothing remembered. -/
theorem fst_run_evaluate_after (unit : AngleUnit) (requests : List Request) (bindings : Bindings)
    (s : List Char) :
    let e := after requests (new unit)
    ((evaluate bindings s).run e).1 = Formula.evaluate e.unit bindings s := by
  have hsound := (isSound_after (isSound_new unit) .boundless requests).1
  obtain ⟨r, e', hrun, hr, -⟩ := run_evaluate hsound .boundless bindings s
  exact (congrArg Prod.fst hrun).trans (CallStack.stopsOrIs_boundless.mp hr)

/-- On any call stack, what an evaluator was asked for before shows in no answer that a new
evaluator with the unit that was selected last has room for: the answer is the same. Where a new
evaluator is too complex, what is remembered can save calls, and then the answer is the one that
there is with room for everything. A name that is no unit is refused, and nothing changes. -/
theorem run_after (stack : CallStack) (unit : AngleUnit) (requests : List Request) :
    let e := after requests (new unit) stack
    let selected := requests.foldl Request.select unit
    e.unit = selected ∧
      (∀ request : Request,
        let answer := ((request.perform stack).run e).1
        let fresh := ((request.perform stack).run (new selected)).1
        answer = fresh ∨ fresh = .error .tooComplex ∧
          answer = (request.perform.run (new selected)).1) ∧
      ∀ name, (selectUnit name).run e =
        match AngleUnit.read name with
        | .ok unit => (.ok (), { e with unit := unit })
        | .error f => (.error f, e) := by
  intro e selected
  obtain ⟨hsound, hunit⟩ := isSound_after (isSound_new unit) stack requests
  have hselected : e.unit = selected := hunit
  refine ⟨hselected, ?_, fun name => run_selectUnit name e⟩
  intro request answer fresh
  obtain ⟨r, e₁, hrun, hr, -⟩ := run_perform hsound stack request
  obtain ⟨r', e₂, hroom, hr', -⟩ := run_perform (isSound_new selected) .boundless request
  obtain rfl : answer = r := congrArg Prod.fst hrun
  have hanswer : (request.perform.run (new selected)).1 = request.answer e.unit := by
    rw [hroom, CallStack.stopsOrIs_boundless.mp hr', ← hselected]
    rfl
  have hbelow : (new selected).Below e := hselected ▸ .new hsound
  rcases hbelow.fst_run_perform stack request with ⟨-, hstop⟩ | heq
  · rcases hr with ⟨-, hr⟩ | hr
    · exact .inl (hr.trans hstop.symm)
    · exact .inr ⟨hstop, hr.trans hanswer.symm⟩
  · exact .inl heq.symm

end

/-- Ten open calls are enough for a text in five pairs of brackets, but not behind two names: there
it has to be remembered. -/
theorem run_evaluate_recalled_brackets :
    let stack : CallStack := ⟨some 10, fun _ => true⟩
    let s := ['(', '(', '(', '(', '(', '1', ')', ')', ')', ')', ')']
    let evaluated := evaluate [("a", .text ['b']), ("b", .text s)] ['a'] stack
    (evaluated.run (after [.parse s] (new .rad) stack)).1 = .ok (.ofNat 1) ∧
      (evaluated.run (new .rad)).1 = .error .tooComplex := by
  decide +kernel

end Evaluator

end Reckon
