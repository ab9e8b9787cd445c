import Mathlib.Data.Finset.Card
import Mathlib.Data.Finset.Dedup
import Mathlib.Data.List.DropRight
import Mathlib.Data.List.Nodup
import Reckon.Proofs.Memory

/-!
# What an evaluator reports

Every text that an evaluator reads is counted, reported and remembered at once, so these three never
differ (`Accounts`). Which texts are read is said by an evaluation that remembers nothing and lists
every prepared text that has a tree (`Listing`): an evaluator with a memory reads each of these
once, however often they are met, in formulas or in what names are bound to, and whether or not the
evaluation fails afterwards (`Lists`, `accounts_after`).
-/

namespace Reckon.Evaluator

/-! ### Accounts -/

/-- The prepared texts whose trees are remembered, the last one first. -/
def texts (e : Evaluator) : List (List Char) :=
  e.memory.map (·.1)

/-- The texts read so far are counted, and all are reported: first the texts `earlier`, that were
read before the memory was cleared last, then those that are remembered, each of them once. -/
structure Accounts (earlier : List (List Char)) (e : Evaluator) : Prop where
  count : e.readCount = e.reported.length
  reported : e.reported = e.texts ++ earlier
  nodup : e.texts.Nodup

variable {e e' e'' : Evaluator} {key : List Char} {t : Tree} {earlier read read' : List (List Char)}

theorem mem_texts_of_remembered? (h : e.remembered? key = some t) : key ∈ e.texts :=
  List.mem_map_of_mem (mem_of_remembered? h)

theorem not_mem_texts_of_remembered? (h : e.remembered? key = none) : key ∉ e.texts := by
  rw [remembered?, Option.map_eq_none_iff, List.find?_eq_none] at h
  intro hmem
  obtain ⟨p, hp, hkey⟩ := List.mem_map.mp hmem
  exact h p hp (by simpa using hkey)

theorem accounts_new (unit : AngleUnit) : Accounts [] (new unit) :=
  ⟨rfl, rfl, List.nodup_nil⟩

theorem Accounts.noted (h : e.Accounts earlier) (event : Event) :
    (e.noted event).Accounts earlier :=
  ⟨h.count, h.reported, h.nodup⟩

theorem Accounts.withTree (h : e.Accounts earlier) (hkey : e.remembered? key = none) :
    (e.withTree key t).Accounts earlier :=
  ⟨congrArg (· + 1) h.count, congrArg (key :: ·) h.reported,
    List.nodup_cons.mpr ⟨not_mem_texts_of_remembered? hkey, h.nodup⟩⟩

theorem Accounts.cleared (h : e.Accounts earlier) :
    Accounts e.reported { e with memory := [] } :=
  ⟨h.count, rfl, List.nodup_nil⟩

/-- What an evaluator becomes by reading the texts `read`, the last one first: those that it
remembers already are not read again. -/
structure Learns (read : List (List Char)) (e e' : Evaluator) : Prop extends Extends e e' where
  accounts : ∀ earlier, e.Accounts earlier → e'.Accounts earlier
  texts : e'.texts = read ∪ e.texts

namespace Learns

theorem refl (e : Evaluator) : e.Learns [] e :=
  ⟨.refl e, fun _ => id, rfl⟩

theorem trans (h : e.Learns read e') (h' : e'.Learns read' e'') :
    e.Learns (read' ++ read) e'' where
  toExtends := h.toExtends.trans h'.toExtends
  accounts earlier he := h'.accounts earlier (h.accounts earlier he)
  texts := by
    rw [h'.texts, h.texts]
    exact List.foldr_append.symm

theorem noted (e : Evaluator) (event : Event) : e.Learns [] (e.noted event) :=
  ⟨extends_noted e event, fun _ h => h.noted event, rfl⟩

/-- A text that is remembered is recalled. -/
theorem recalled (hkey : e.remembered? key = some t) (event : Event) :
    e.Learns [key] (e.noted event) :=
  ⟨extends_noted e event, fun _ h => h.noted event,
    (List.insert_of_mem (mem_texts_of_remembered? hkey)).symm⟩

theorem withTree (hkey : e.remembered? key = none) (hv : Formula.validate key = .ok ())
    (hr : Formula.read key = .ok t) : e.Learns [key] (e.withTree key t) :=
  ⟨extends_withTree hkey hv hr, fun _ h => h.withTree hkey,
    (List.insert_of_not_mem (not_mem_texts_of_remembered? hkey)).symm⟩

end Learns

/-! ### Listing what is read -/

/-- What a computation does that remembers no trees: it lists the prepared texts that have one, the
last one first. -/
abbrev Listing := ExceptT Failure (StateM (List (List Char)))

namespace Listing

def tree (s : List Char) : Listing Tree := do
  let key ← MonadExcept.ofExcept (Formula.prepare s)
  let tree ← MonadExcept.ofExcept (Formula.validate key >>= fun _ => Formula.read key)
  modify fun listed => key :: listed
  return tree

theorem run_tree (s : List Char) (listed : List (List Char)) :
    (tree s).run listed =
      match Formula.prepare s with
      | .error f => (.error f, listed)
      | .ok key =>
        match Formula.validate key >>= fun _ => Formula.read key with
        | .error f => (.error f, listed)
        | .ok t => (.ok t, key :: listed) := by
  rw [tree, run_bind, run_ofExcept]
  cases Formula.prepare s with
  | error f => rfl
  | ok key =>
    simp only
    rw [run_bind, run_ofExcept]
    cases Formula.validate key >>= fun _ => Formula.read key with
    | error f => rfl
    | ok t => rfl

end Listing

/-- Whatever is remembered already, the call comes to what the listing comes to, and it reads what
is listed. -/
def Lists {α : Type} (call : Call α) (listing : Listing α) : Prop :=
  ∃ r read, (∀ listed, listing.run listed = (r, read ++ listed)) ∧
    ∀ e : Evaluator, e.IsSound → ∃ e', call.run e = (r, e') ∧ e.Learns read e'

namespace Lists
variable {α β : Type}

theorem pure (a : α) : Lists (pure a) (pure a) :=
  ⟨.ok a, [], fun _ => rfl, fun e _ => ⟨e, rfl, .refl e⟩⟩

theorem throw (f : Failure) : Lists (throw f : Call α) (throw f) :=
  ⟨.error f, [], fun _ => rfl, fun e _ => ⟨e, rfl, .refl e⟩⟩

theorem bind {call : Call α} {listing : Listing α} {next : α → Call β} {next' : α → Listing β}
    (h : Lists call listing) (hnext : ∀ a, Lists (next a) (next' a)) :
    Lists (call >>= next) (listing >>= next') := by
  obtain ⟨r, read, hlisting, hcall⟩ := h
  cases r with
  | error f =>
    refine ⟨.error f, read, fun listed => ?_, fun e he => ?_⟩
    · rw [run_bind, hlisting]
    · obtain ⟨e', hrun, hlearns⟩ := hcall e he
      exact ⟨e', by rw [run_bind, hrun], hlearns⟩
  | ok a =>
    obtain ⟨r, read', hlisting', hcall'⟩ := hnext a
    refine ⟨r, read' ++ read, fun listed => ?_, fun e he => ?_⟩
    · rw [run_bind, hlisting, List.append_assoc]
      exact hlisting' _
    · obtain ⟨e₁, hrun, hlearns⟩ := hcall e he
      obtain ⟨e₂, hrun', hlearns'⟩ := hcall' e₁ (hlearns.sound he)
      exact ⟨e₂, by rw [run_bind, hrun]; exact hrun', hlearns.trans hlearns'⟩

theorem isCarried : IsCarried (m := Call) (n := Listing) fun _ => Lists where
  pure := .pure
  throw := .throw
  bind := .bind

theorem treeAt (calls : Nat) (s : List Char) :
    Lists (treeAt .boundless calls s) (Listing.tree s) := by
  cases hp : Formula.prepare s with
  | error f =>
    refine ⟨.error f, [], fun listed => ?_, fun e _ => ⟨e, ?_, .refl e⟩⟩
    · rw [Listing.run_tree, hp]
      rfl
    · rw [run_treeAt, hp]
  | ok key =>
    cases hread : Formula.validate key >>= fun _ => Formula.read key with
    | error f =>
      refine ⟨.error f, [], fun listed => ?_, fun e he => ⟨_, ?_, .noted e (.readAnew key)⟩⟩
      · simp only [Listing.run_tree, hp, hread, List.nil_append]
      · -- what is remembered has a tree
        cases hkey : e.remembered? key with
        | none => simp only [run_treeAt, CallStack.read_boundless, hp, hread, hkey]
        | some t => cases (he.read_eq hkey).symm.trans hread
    | ok t =>
      obtain ⟨⟨⟩, hv, hr⟩ := bind_eq_ok_iff.mp hread
      refine ⟨.ok t, [key], fun listed => ?_, fun e he => ?_⟩
      · simp only [Listing.run_tree, hp, hread, List.singleton_append]
      · cases hkey : e.remembered? key with
        | some t' =>
          obtain rfl := Except.ok.inj ((he.read_eq hkey).symm.trans hread)
          exact ⟨_, by simp only [run_treeAt, hp, hkey], .recalled hkey (.recalled key)⟩
        | none =>
          exact ⟨_, by simp only [run_treeAt, CallStack.read_boundless, hp, hread, hkey],
            (Learns.noted e (.readAnew key)).trans (.withTree hkey hv hr)⟩

end Lists

/-! ### Requests -/

namespace Request

def isClear : Request → Bool
  | clear => true
  | _ => false

/-- The prepared texts that a request reads if nothing is remembered, the last one first: those of a
request that fails are the ones that it reads before. -/
def texts [Binary64.Library] (unit : AngleUnit) : Request → List (List Char)
  | evaluate bindings s => ((Formula.evaluateWith Listing.tree unit bindings s).run []).2
  | parse s => ((Listing.tree s).run []).2
  | selectUnit _ | clear => []

/-- The texts that the requests read, the last one first. -/
def allTexts [Binary64.Library] (unit : AngleUnit) : List Request → List (List Char)
  | [] => []
  | request :: requests => allTexts (request.select unit) requests ++ request.texts unit

end Request

theorem Lists.learns {α : Type} {call : Call α} {listing : Listing α} (h : Lists call listing)
    (he : e.IsSound) : e.Learns (listing.run []).2 (call.run e).2 := by
  obtain ⟨r, read, hlisting, hcall⟩ := h
  obtain ⟨e', hrun, hlearns⟩ := hcall e he
  rw [hrun, hlisting, List.append_nil]
  exact hlearns

section
variable [Binary64.Library]

theorem Lists.evaluateWith (unit : AngleUnit) (bindings : Bindings) (s : List Char) :
    Lists (Formula.evaluateOn .boundless (Evaluator.treeAt .boundless) unit bindings s)
      (Formula.evaluateWith Listing.tree unit bindings s) := by
  have hwithin : ∀ calls (x : Call Decimal) (y : Listing Decimal), Lists x y →
      Lists (CallStack.boundless.within calls x) (CallStack.boundless.within calls y) :=
    fun _ _ _ h => h
  change Lists _ (Formula.evaluateOn .boundless (fun _ => Listing.tree) unit bindings s)
  exact Lists.isCarried.evaluateOn hwithin Lists.treeAt s

/-- One request that does not clear the memory. -/
theorem accounts_perform (he : e.IsSound) (h : e.Accounts earlier) {request : Request}
    (hclear : request.isClear = false) :
    let e' := (request.perform.run e).2
    e'.Accounts earlier ∧ e'.texts = request.texts e.unit ∪ e.texts := by
  intro e'
  cases request with
  | evaluate bindings s =>
    have hlearns := (Lists.evaluateWith e.unit bindings s).learns he
    rw [← run_evaluate_eq] at hlearns
    have he' : e' = ((evaluate bindings s).run e).2 :=
      congrArg Prod.snd (run_bind_pure (evaluate bindings s) Reply.value e)
    rw [he']
    exact ⟨hlearns.accounts earlier h, hlearns.texts⟩
  | parse s =>
    have hlearns := (Lists.treeAt 0 s).learns he
    have he' : e' = ((tree s).run e).2 :=
      congrArg Prod.snd (run_bind_pure (tree s) Reply.tree e)
    rw [he']
    exact ⟨hlearns.accounts earlier h, hlearns.texts⟩
  | selectUnit name =>
    have he' : e' = ((selectUnit name >>= fun _ => pure Reply.done).run e).2 := rfl
    rw [he', run_bind, run_selectUnit]
    cases AngleUnit.read name with
    | error f => exact ⟨h, rfl⟩
    | ok unit => exact ⟨⟨h.count, h.reported, h.nodup⟩, rfl⟩
  | clear => cases hclear

/-- Any number of requests that do not clear the memory. -/
theorem accounts_after_of_not_isClear (he : e.IsSound) (h : e.Accounts earlier)
    {requests : List Request} (hclear : ∀ request ∈ requests, request.isClear = false) :
    (after requests e).Accounts earlier ∧
      (after requests e).texts = Request.allTexts e.unit requests ∪ e.texts := by
  induction requests generalizing e with
  | nil => exact ⟨h, rfl⟩
  | cons request requests ih =>
    obtain ⟨r, e', hrun, -, hsound, hunit⟩ := run_perform he .boundless request
    obtain ⟨haccounts, htexts⟩ := accounts_perform he h (hclear request (by simp))
    rw [hrun] at haccounts htexts
    obtain ⟨hafter, hall⟩ :=
      ih hsound haccounts fun request h => hclear request (List.mem_cons_of_mem _ h)
    rw [after, List.foldl_cons, hrun]
    refine ⟨hafter, hall.trans ?_⟩
    rw [htexts, hunit, Request.allTexts]
    exact List.foldr_append.symm

/-- Any number of requests. -/
theorem exists_accounts_after (he : e.IsSound) (h : e.Accounts earlier)
    (requests : List Request) : ∃ earlier, (after requests e).Accounts earlier := by
  induction requests generalizing e earlier with
  | nil => exact ⟨earlier, h⟩
  | cons request requests ih =>
    obtain ⟨r, e', hrun, -, hsound, -⟩ := run_perform he .boundless request
    rw [after, List.foldl_cons, hrun]
    cases hclear : request.isClear with
    | false =>
      have haccounts := (accounts_perform he h hclear).1
      rw [hrun] at haccounts
      exact ih hsound haccounts
    | true =>
      cases request with
      | clear => cases hrun; exact ih hsound h.cleared
      | _ => cases hclear

theorem after_append (requests requests' : List Request) (e : Evaluator) :
    after (requests ++ requests') e = after requests' (after requests e) :=
  List.foldl_append

/-- After a request that clears the memory, or before all requests, nothing is remembered. -/
theorem memory_after_rdropWhile (unit : AngleUnit) (requests : List Request) :
    (after (requests.rdropWhile fun request => !request.isClear) (new unit)).memory = [] := by
  induction requests using List.reverseRecOn with
  | nil => rfl
  | append_singleton requests request ih =>
    rw [List.rdropWhile_concat]
    cases request with
    | clear =>
      change (after (requests ++ [.clear]) (new unit)).memory = []
      rw [after_append]
      rfl
    | evaluate | parse | selectUnit => exact ih

end

/-- A text that fails to be prepared, validated or read is neither counted nor reported, and it is
not remembered. -/
theorem run_tree_error {s : List Char} {f : Failure} (h : (tree s).run e = (.error f, e')) :
    e'.readCount = e.readCount ∧ e'.reported = e.reported ∧ e'.memory = e.memory := by
  rw [tree, run_treeAt] at h
  split at h
  · cases h
    exact ⟨rfl, rfl, rfl⟩
  split at h
  · cases h
  split at h
  · cases h
    exact ⟨rfl, rfl, rfl⟩
  · cases h

/-- After any requests as many texts are counted as are reported. The texts that are remembered are
those that were reported since the memory was cleared last: each of them once, also what names are
bound to, and none that had a tree is missing, also where the evaluation failed later. A text that
fails leaves all of this as it was. -/
theorem accounts_after [Binary64.Library] (unit : AngleUnit) (requests : List Request) :
    let e := after requests (new unit)
    let cleared := after (requests.rdropWhile fun request => !request.isClear) (new unit)
    let later := requests.rtakeWhile fun request => !request.isClear
    let remembered := e.memory.map (·.1)
    e.readCount = e.reported.length ∧
      e.reported = remembered ++ cleared.reported ∧
      remembered.Nodup ∧ e.memory.length = remembered.toFinset.card ∧
      (∀ key, key ∈ remembered ↔ key ∈ Request.allTexts cleared.unit later) ∧
      ∀ (e₁ e₂ : Evaluator) s f, (tree s).run e₁ = (.error f, e₂) →
        e₂.readCount = e₁.readCount ∧ e₂.reported = e₁.reported ∧ e₂.memory = e₁.memory := by
  intro e cleared later remembered
  have hmemory : cleared.memory = [] := memory_after_rdropWhile unit requests
  have hsound : cleared.IsSound := (isSound_after (isSound_new unit) .boundless _).1
  have hcleared : cleared.Accounts cleared.reported := by
    obtain ⟨earlier, h⟩ := exists_accounts_after (isSound_new unit) (accounts_new unit) _
    exact ⟨h.count, by rw [texts, hmemory]; rfl, h.nodup⟩
  have hlater : ∀ request ∈ later, request.isClear = false := by
    intro request hmem
    simpa using List.mem_rtakeWhile_imp hmem
  have he : e = after later cleared := by
    rw [← after_append, List.rdropWhile_append_rtakeWhile]
  obtain ⟨haccounts, htexts⟩ := accounts_after_of_not_isClear hsound hcleared hlater
  rw [← he] at haccounts htexts
  have hnone : cleared.texts = [] := by rw [texts, hmemory]; rfl
  rw [hnone] at htexts
  refine ⟨haccounts.count, haccounts.reported, haccounts.nodup, ?_, fun key => ?_,
    fun e₁ e₂ s f => run_tree_error⟩
  · change e.memory.length = e.texts.toFinset.card
    rw [List.toFinset_card_of_nodup haccounts.nodup, texts, List.length_map]
  · change key ∈ e.texts ↔ _
    rw [htexts, List.mem_union_iff]
    exact ⟨fun h => h.resolve_right List.not_mem_nil, .inl⟩

/-- A name is bound to a text that is read, and no value is found in the end; the same texts are met
again after the memory was cleared. -/
theorem accounts_after_unbound :
    let unfinished : Request := .evaluate [("x", .text ['2', 'y'])] ['X', '+', 'x']
    let requests := [unfinished, .parse ['('], .clear, unfinished, .parse ['2', '*', 'y'],
      .selectUnit "turn", .parse ['x', '+', ' ', 'x']]
    let e := after requests (new .rad)
    e.reported = [['2', '*', 'y'], ['x', '+', 'x'], ['2', '*', 'y'], ['x', '+', 'x']] ∧
      e.readCount = 4 ∧ e.memory.length = 2 ∧
      ((tree ['(']).run e).1 = .error (.malformed .unbalanced) ∧
      ((tree ['(']).run e).2.readCount = 4 := by
  intro unfinished requests e
  have hreported : e.reported =
      [['2', '*', 'y'], ['x', '+', 'x'], ['2', '*', 'y'], ['x', '+', 'x']] := by
    decide +kernel
  have hremembered : e.memory.map (·.1) = [['2', '*', 'y'], ['x', '+', 'x']] := by
    decide +kernel
  have hfails : ((tree ['(']).run e).1 = .error (.malformed .unbalanced) := by
    decide +kernel
  obtain ⟨hcount, -, -, hsize, -, hunchanged⟩ := accounts_after .rad requests
  have hsame := (hunchanged e _ _ _ (Prod.ext hfails rfl)).1
  change e.readCount = e.reported.length at hcount
  change e.memory.length = (e.memory.map (·.1)).toFinset.card at hsize
  rw [hreported] at hcount
  rw [hremembered] at hsize
  exact ⟨hreported, hcount, hsize, hfails, hsame.trans hcount⟩

end Reckon.Evaluator
