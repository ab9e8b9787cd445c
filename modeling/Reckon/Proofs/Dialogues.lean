import Mathlib.Data.List.Basic
import Mathlib.Data.List.Forall2
import Reckon.CommandLine.Outcome
import Reckon.Proofs.Calls
import Reckon.Proofs.Memory

/-!
# Dialogues

What a line is answered with depends on the bindings, the unit of angles and, where the call stack
is too small, on what is remembered: a dialogue that remembers more answers in the same way, unless
the other one is too complex (`Dialogue.forall₂_hear`). A line that shows anything leaves the
bindings and the unit alone and lets nothing be forgotten, so one that is answered with a problem
can be left out, and the other lines are answered as before, except for those that lack what was
read for it (`hear_eraseIdx_of_isProblem`).
-/

namespace Reckon

/-! ### Answers -/

/-- A call that is watched does not fail: what it comes to is its result. -/
theorem run_lift {ε ε' σ α : Type} (call : ExceptT ε (StateM σ) α) (s : σ) :
    (ExceptT.lift call.run : ExceptT ε' (StateM σ) (Except ε α)).run s =
      (.ok (call.run s).1, (call.run s).2) :=
  rfl

/-- What is answered where the call stack is too small. -/
def Answer.tooComplex {α : Type} : Answer α :=
  .problem Failure.tooComplex.message "TOO_DEEP"

namespace Evaluator
variable (stack : CallStack) (bindings : Bindings) (s : List Char) {e e' : Evaluator}

/-- What is displayed where a formula comes to `r`. -/
def displayed (r : Except Failure Decimal) : Except Failure ValueAnswer := do
  match ← Answer.ofCall r with
  | .result a => a.display.map .result
  | .problem message code => .ok (.problem message code)

theorem run_answer (e : Evaluator) :
    (answer bindings s stack).run e =
      (displayed ((evaluate bindings s stack).run e).1, ((evaluate bindings s stack).run e).2) := by
  simp only [answer, displayed]
  rw [run_bind, run_lift]
  simp only [run_bind, run_ofExcept]
  rcases Answer.ofCall ((evaluate bindings s stack).run e).1 with _ | a | _
  · rfl
  · simp only [run_bind, run_ofExcept]
    show _ = (a.display.map Answer.result, _)
    rcases a.display with _ | _ <;> rfl
  · rfl

theorem extends_run_answer (he : e.IsSound) :
    e.Extends ((answer bindings s stack).run e).2 := by
  rw [run_answer]
  exact (Follows.evaluate stack bindings s).grows he

/-- The answer is the one of an evaluator that remembers more, or the call stack is too small. -/
theorem Below.run_answer (h : e.Below e') :
    ((stack.room.isSome = true ∧ ((answer bindings s stack).run e).1 = .ok .tooComplex) ∨
        ((answer bindings s stack).run e).1 = ((answer bindings s stack).run e').1) ∧
      ((answer bindings s stack).run e).2.Below ((answer bindings s stack).run e').2 := by
  obtain ⟨hanswer, hbelow⟩ := (Follows.evaluate stack bindings s).step h
  rw [Evaluator.run_answer, Evaluator.run_answer]
  refine ⟨?_, hbelow⟩
  rcases hanswer with ⟨hroom, hr⟩ | hr
  · left
    rw [hr]
    exact ⟨hroom, rfl⟩
  · right
    rw [hr]

end Evaluator

theorem Differentiator.fst_run_answer (targets : Targets) (s : List Char) (stack : CallStack)
    (d d' : Differentiator) :
    ((answer targets s stack).run d).1 = ((answer targets s stack).run d').1 := by
  simp only [answer]
  rw [run_bind, run_bind, run_lift, run_lift, fst_run_derivatives targets s stack d d']
  simp only [run_ofExcept]

namespace CommandLine

namespace Dialogue
variable {d d' : Dialogue}

/-! ### Commands -/

section
variable (d : Dialogue)

theorem run_selectUnit (name : List Char) :
    (obey (.selectUnit name)).run d =
      match AngleUnit.read (String.ofList name) with
      | .ok unit => (.ok (.shows []), { d with evaluator := { d.evaluator with unit := unit } })
      | .error f => (.ok (.shows [problemLine f.message]), d) := by
  have hrun : (onEvaluator (Evaluator.selectUnit (String.ofList name))).run d =
      let (r, e) := (Evaluator.selectUnit (String.ofList name)).run d.evaluator
      (r, { d with evaluator := e }) := rfl
  simp only [obey, silently]
  rw [run_bind, run_bind, run_lift, hrun, Evaluator.run_selectUnit]
  rcases AngleUnit.read (String.ofList name) with _ | _ <;> rfl

theorem run_bind_text (text : List Char) :
    (obey (.bind text)).run d =
      match Bindings.read text with
      | .ok new => (.ok (.shows []), { d with bindings := d.bindings.update new })
      | .error f => (.ok (.shows [problemLine f.message]), d) := by
  simp only [obey, silently, bind]
  rw [run_bind, run_bind, run_lift, run_bind, run_ofExcept]
  rcases Bindings.read text with _ | _ <;> rfl

theorem run_differentiate (s targets : List Char) :
    (obey (.differentiate s targets)).run d =
      let p := (Differentiator.answer (.listed targets) s d.stack).run d.differentiator
      (p.1.map fun a => .shows (derivativesLines d.style a), { d with differentiator := p.2 }) := by
  have hget : (get : Call Dialogue).run d = (.ok d, d) := rfl
  have hrun : (onDifferentiator (Differentiator.answer (.listed targets) s d.stack)).run d =
      let p := (Differentiator.answer (.listed targets) s d.stack).run d.differentiator
      (p.1, { d with differentiator := p.2 }) := rfl
  simp only [obey]
  rw [run_bind, hget]
  simp only [run_bind, hrun]
  rcases (Differentiator.answer (.listed targets) s d.stack).run d.differentiator
    with ⟨_ | _, e⟩ <;> rfl

theorem run_evaluate (s : List Char) :
    (obey (.evaluate s)).run d =
      let p := (Evaluator.answer d.bindings s d.stack).run d.evaluator
      (p.1.map fun a => .shows (valueLines d.style a), { d with evaluator := p.2 }) := by
  have hget : (get : Call Dialogue).run d = (.ok d, d) := rfl
  have hrun : (onEvaluator (Evaluator.answer d.bindings s d.stack)).run d =
      let p := (Evaluator.answer d.bindings s d.stack).run d.evaluator
      (p.1, { d with evaluator := p.2 }) := rfl
  simp only [obey]
  rw [run_bind, hget]
  simp only
  rw [run_bind, hget]
  simp only [run_bind, hrun]
  rcases (Evaluator.answer d.bindings s d.stack).run d.evaluator with ⟨_ | _, e⟩ <;> rfl

theorem run_listBindings :
    (obey .listBindings).run d =
      ((d.bindings.mapM fun (x, b) => bindingLine x b).map .shows, d) := by
  have hget : (get : Call Dialogue).run d = (.ok d, d) := rfl
  simp only [obey]
  rw [run_bind, hget]
  simp only
  rw [run_bind_pure, run_ofExcept]

end

/-! ### Remembering more -/

/-- Two dialogues of one style on one call stack, with the same bindings and the same unit. The
second one remembers what the first one does. -/
structure Below (style : Style) (stack : CallStack) (d d' : Dialogue) : Prop where
  ofStyle : d.style = style
  ofStyle' : d'.style = style
  onStack : d.stack = stack
  onStack' : d'.stack = stack
  bindings : d.bindings = d'.bindings
  evaluator : d.evaluator.Below d'.evaluator

/-- How a call is taken by two dialogues of which the second one remembers more: in the same way,
unless the call stack is too small for the first one. Where the reply is not silence, nothing that
the first one had is lost to the second one. -/
structure Follows (style : Style) (stack : CallStack) (call : Call Reply) (d d' : Dialogue) :
    Prop where
  reply : (stack.room.isSome = true ∧ (call.run d).1 = .ok (.shows (valueLines style .tooComplex)) ∧
      (call.run d').1 ≠ .ok .leaves) ∨ (call.run d).1 = (call.run d').1
  below : Below style stack (call.run d).2 (call.run d').2
  kept : Below style stack d (call.run d').2 ∨ (call.run d').1 = .ok (.shows [])

section
variable {style : Style} {stack : CallStack}

theorem below_new (style : Style) (unit : AngleUnit) (stack : CallStack) :
    Below style stack (new style unit stack) (new style unit stack) :=
  ⟨rfl, rfl, rfl, rfl, rfl, .refl (Evaluator.isSound_new unit)⟩

theorem Below.withEvaluator (h : Below style stack d d') {e e' : Evaluator} (he : e.Below e') :
    Below style stack { d with evaluator := e } { d' with evaluator := e' } :=
  ⟨h.ofStyle, h.ofStyle', h.onStack, h.onStack', h.bindings, he⟩

variable (h : Below style stack d d')
include h

theorem follows_pure (r : Reply) : Follows style stack (pure r) d d' :=
  ⟨.inr rfl, h, .inl h⟩

theorem follows_selectUnit (name : List Char) :
    Follows style stack (obey (.selectUnit name)) d d' := by
  constructor <;> simp only [run_selectUnit] <;>
    rcases AngleUnit.read (String.ofList name) with f | unit
  case below.ok =>
    exact h.withEvaluator ⟨rfl, h.evaluator.sound, h.evaluator.sound', h.evaluator.remembered⟩
  case kept.ok => exact .inr rfl
  case kept.error => exact .inl h
  case below.error => exact h
  all_goals exact .inr rfl

theorem follows_bind (text : List Char) : Follows style stack (obey (.bind text)) d d' := by
  constructor <;> simp only [run_bind_text] <;> rcases Bindings.read text with f | new
  case below.ok =>
    exact ⟨h.ofStyle, h.ofStyle', h.onStack, h.onStack', congrArg (·.update new) h.bindings,
      h.evaluator⟩
  case kept.ok => exact .inr rfl
  case kept.error => exact .inl h
  case below.error => exact h
  all_goals exact .inr rfl

theorem follows_listBindings : Follows style stack (obey .listBindings) d d' := by
  constructor <;> simp only [run_listBindings, h.bindings]
  case reply => exact .inr trivial
  case below => exact h
  case kept => exact .inl h

theorem follows_differentiate (s targets : List Char) :
    Follows style stack (obey (.differentiate s targets)) d d' := by
  have hsame := Differentiator.fst_run_answer (.listed targets) s stack d.differentiator
    d'.differentiator
  have hbelow : ∀ e e' : Differentiator,
      Below style stack { d with differentiator := e } { d' with differentiator := e' } :=
    fun _ _ => ⟨h.ofStyle, h.ofStyle', h.onStack, h.onStack', h.bindings, h.evaluator⟩
  constructor <;> simp only [run_differentiate]
  case reply =>
    right
    rw [h.ofStyle, h.ofStyle', h.onStack, h.onStack', hsame]
  case below => exact hbelow ..
  case kept => exact .inl (hbelow d.differentiator _)

theorem follows_evaluate (s : List Char) : Follows style stack (obey (.evaluate s)) d d' := by
  obtain ⟨hanswer, hbelow⟩ := h.evaluator.run_answer stack d.bindings s
  have hgrown := Evaluator.extends_run_answer stack d.bindings s h.evaluator.sound'
  have hcall : Evaluator.answer d.bindings s d.stack = Evaluator.answer d.bindings s stack := by
    rw [h.onStack]
  have hcall' : Evaluator.answer d'.bindings s d'.stack = Evaluator.answer d.bindings s stack := by
    rw [h.onStack', h.bindings]
  constructor <;> simp only [run_evaluate, hcall, hcall']
  case reply =>
    rw [h.ofStyle, h.ofStyle']
    rcases hanswer with ⟨hroom, hr⟩ | hr
    · left
      rw [hr]
      refine ⟨hroom, rfl, ?_⟩
      rcases ((Evaluator.answer d.bindings s stack).run d'.evaluator).1 with f | a
      · exact nofun
      · exact nofun
    · right
      rw [hr]
  case below => exact h.withEvaluator hbelow
  case kept => exact .inl (h.withEvaluator (h.evaluator.trans_extends hgrown))

theorem follows_obey (c : Command) : Follows style stack (obey c) d d' := by
  cases c with
  | leave => exact follows_pure h .leaves
  | help => exact follows_pure h (.shows helpLines)
  | listBindings => exact follows_listBindings h
  | selectUnit name => exact follows_selectUnit h name
  | bind text => exact follows_bind h text
  | differentiate s targets => exact follows_differentiate h s targets
  | evaluate s => exact follows_evaluate h s

theorem follows_reply (line : List Char) : Follows style stack (reply line) d d' := by
  simp only [reply]
  split
  · exact follows_pure h (.shows [])
  · exact follows_obey h _

/-! What happened is nothing that a dialogue remembers. -/

theorem Below.takeEvents_left : Below style stack d.takeEvents.2 d' :=
  ⟨h.ofStyle, h.ofStyle', h.onStack, h.onStack', h.bindings,
    ⟨h.evaluator.unit, h.evaluator.sound, h.evaluator.sound', h.evaluator.remembered⟩⟩

theorem Below.takeEvents_right : Below style stack d d'.takeEvents.2 :=
  ⟨h.ofStyle, h.ofStyle', h.onStack, h.onStack', h.bindings,
    ⟨h.evaluator.unit, h.evaluator.sound, h.evaluator.sound', h.evaluator.remembered⟩⟩

end

/-! ### Lines -/

/-- What the lines are answered with, up to the one that ends the dialogue, and the dialogue
then. -/
def hear (d : Dialogue) : (lines : List (List Char)) → List (Except Failure Reply) × Dialogue
  | [] => ([], d)
  | line :: lines =>
    let (r, d) := (reply line).run d
    let (_, d) := d.takeEvents
    match r with
    | .ok (.shows shown) =>
      let (replies, d) := hear d lines
      (.ok (.shows shown) :: replies, d)
    | .ok .leaves => ([.ok .leaves], d)
    | .error f => ([.error f], d)

section
variable {line : List Char} {lines : List (List Char)} {shown : List String}

theorem hear_of_shows (h : (reply line).run d = (.ok (.shows shown), d')) :
    d.hear (line :: lines) =
      (.ok (.shows shown) :: (d'.takeEvents.2.hear lines).1, (d'.takeEvents.2.hear lines).2) := by
  rw [hear, h]

theorem hear_of_ends {r : Except Failure Reply} (h : (reply line).run d = (r, d'))
    (hr : ∀ shown, r ≠ .ok (.shows shown)) :
    d.hear (line :: lines) = ([r], d'.takeEvents.2) := by
  rw [hear, h]
  rcases r with f | shown | _
  · rfl
  · exact absurd rfl (hr shown)
  · rfl

end

/-- The first reply is the second one, or that the call stack is too small. -/
def SaysUnlessTooComplex (style : Style) (stack : CallStack) (r r' : Except Failure Reply) : Prop :=
  (stack.room.isSome = true ∧ r = .ok (.shows (valueLines style .tooComplex))) ∨ r = r'

section
variable {style : Style} {stack : CallStack} {lines : List (List Char)}

/-- Lines that no dialogue fails at are answered by the one that remembers less as by the other one,
unless the call stack is too small for it. -/
theorem forall₂_hear (h : Below style stack d d') (hforeseen : ∀ f, .error f ∉ (d'.hear lines).1) :
    List.Forall₂ (SaysUnlessTooComplex style stack) (d.hear lines).1 (d'.hear lines).1 ∧
      Below style stack (d.hear lines).2 (d'.hear lines).2 := by
  induction lines generalizing d d' with
  | nil => exact ⟨.nil, h⟩
  | cons line lines ih =>
    obtain ⟨hreply, hbelow, -⟩ := follows_reply h line
    rcases hrun : (reply line).run d with ⟨r, d₁⟩
    rcases hrun' : (reply line).run d' with ⟨r', d₁'⟩
    rw [hrun, hrun'] at hreply hbelow
    have hnext := hbelow.takeEvents_left.takeEvents_right
    rcases r' with f | shown' | _
    · rw [hear_of_ends hrun' nofun] at hforeseen
      exact absurd (List.mem_singleton_self _) (hforeseen f)
    · rw [hear_of_shows hrun'] at hforeseen ⊢
      have hrest := ih hnext fun f hf => hforeseen f (List.mem_cons_of_mem _ hf)
      obtain ⟨shown, rfl⟩ : ∃ shown, r = .ok (.shows shown) := by
        rcases hreply with ⟨-, hr, -⟩ | hr
        · exact ⟨_, hr⟩
        · exact ⟨shown', hr⟩
      rw [hear_of_shows hrun]
      exact ⟨.cons (hreply.imp_left fun hstop => ⟨hstop.1, hstop.2.1⟩) hrest.1, hrest.2⟩
    · obtain rfl : r = .ok .leaves := by
        rcases hreply with ⟨-, -, hr⟩ | hr
        · exact absurd rfl hr
        · exact hr
      rw [hear_of_ends hrun nofun, hear_of_ends hrun' nofun]
      exact ⟨.cons (.inr rfl) .nil, hnext⟩

/-- A line that shows anything could be left out. -/
theorem forall₂_hear_eraseIdx (hd : Below style stack d d) {n : Nat} {shown : List String}
    (h : (d.hear lines).1[n]? = some (.ok (.shows shown))) (hshown : shown ≠ [])
    (hforeseen : ∀ f, .error f ∉ (d.hear lines).1) :
    List.Forall₂ (SaysUnlessTooComplex style stack) (d.hear (lines.eraseIdx n)).1
        ((d.hear lines).1.eraseIdx n) ∧
      Below style stack (d.hear (lines.eraseIdx n)).2 (d.hear lines).2 := by
  induction lines generalizing d n with
  | nil => simp [hear] at h
  | cons line lines ih =>
    obtain ⟨-, hbelow, hkept⟩ := follows_reply hd line
    rcases hrun : (reply line).run d with ⟨r, d₁⟩
    rw [hrun] at hbelow hkept
    by_cases hshows : ∃ shown, r = .ok (.shows shown)
    · obtain ⟨shown', rfl⟩ := hshows
      rw [hear_of_shows hrun] at h hforeseen ⊢
      have hrest : ∀ f, .error f ∉ (d₁.takeEvents.2.hear lines).1 :=
        fun f hf => hforeseen f (List.mem_cons_of_mem _ hf)
      cases n with
      | zero =>
        obtain rfl : shown' = shown := by simpa using h
        have hsame : Below style stack d d₁ := by simpa [hshown] using hkept
        exact forall₂_hear hsame.takeEvents_right hrest
      | succ n =>
        obtain ⟨hreplies, hafter⟩ :=
          ih hbelow.takeEvents_left.takeEvents_right (n := n) (by simpa using h) hrest
        rw [List.eraseIdx_cons_succ, hear_of_shows hrun]
        exact ⟨.cons (.inr rfl) hreplies, hafter⟩
    · rw [hear_of_ends hrun (not_exists.mp hshows)] at h
      cases n with
      | zero => exact absurd ⟨shown, by simpa using h⟩ hshows
      | succ n => simp at h

end

end Dialogue

/-! ### Output -/

/-- What is printed where the lines are answered with the given replies. -/
def transcript : List (Except Failure Reply) → String
  | [] => prompt ++ printed ["", farewell]
  | .ok (.shows shown) :: replies => prompt ++ printed shown ++ transcript replies
  | .ok .leaves :: _ | .error _ :: _ => prompt

/-- How a dialogue ends that has the given replies. -/
def ending : List (Except Failure Reply) → Except Failure Nat
  | [] => .ok 0
  | .ok (.shows _) :: replies => ending replies
  | .ok .leaves :: _ => .ok 0
  | .error f :: _ => .error f

theorem ending_of_foreseen {replies : List (Except Failure Reply)}
    (h : ∀ f, .error f ∉ replies) : ending replies = .ok 0 := by
  induction replies with
  | nil => rfl
  | cons r replies ih =>
    rcases r with f | _ | _
    · exact absurd (List.mem_cons_self ..) (h f)
    · exact ih fun f hf => h f (List.mem_cons_of_mem _ hf)
    · rfl

theorem converse_eq (d : Dialogue) (lines : List (List Char)) :
    (converse d lines).output = transcript (d.hear lines).1 ∧
      (converse d lines).status = ending (d.hear lines).1 := by
  induction lines generalizing d with
  | nil => exact ⟨rfl, rfl⟩
  | cons line lines ih =>
    have hrun : Id.run (Dialogue.reply line d) = (Dialogue.reply line).run d := rfl
    rw [Dialogue.hear, converse, hrun]
    rcases (Dialogue.reply line).run d with ⟨_ | shown | _, d'⟩
    · exact ⟨rfl, rfl⟩
    · obtain ⟨houtput, hstatus⟩ := ih d'.takeEvents.2
      exact ⟨congrArg (prompt ++ printed shown ++ ·) houtput, hstatus⟩
    · exact ⟨rfl, rfl⟩

/-! ### Problems -/

/-- The lines that say nothing but that a command or a formula was refused. -/
inductive IsProblem (style : Style) : List String → Prop where
  | command (message : String) : IsProblem style [problemLine message]
  | value (message code : String) : IsProblem style (valueLines style (.problem message code))
  | derivatives (message code : String) :
    IsProblem style (derivativesLines style (.problem message code))

theorem IsProblem.ne_nil {style : Style} {shown : List String} (h : IsProblem style shown) :
    shown ≠ [] := by
  cases h <;> cases style <;> exact List.cons_ne_nil _ _

/-- A line that is answered with a problem leaves a dialogue alone. Without it the dialogue has the
same bindings and the same unit after the other lines, and these are answered as before, on any call
stack and as long as no line fails for an unforeseen reason; only a formula that lacks what was read
for that line may now be too complex for the call stack. What is printed is the prompts and the
answers, and nothing else. -/
theorem hear_eraseIdx_of_isProblem (style : Style) (unit : AngleUnit) (stack : CallStack)
    {lines : List (List Char)} {n : Nat} {shown : List String}
    (h : ((Dialogue.new style unit stack).hear lines).1[n]? = some (.ok (.shows shown)))
    (hproblem : IsProblem style shown)
    (hforeseen : ∀ f, .error f ∉ ((Dialogue.new style unit stack).hear lines).1) :
    let d := Dialogue.new style unit stack
    let heard := d.hear lines
    let rest := d.hear (lines.eraseIdx n)
    List.Forall₂ (Dialogue.SaysUnlessTooComplex style stack) rest.1 (heard.1.eraseIdx n) ∧
      rest.2.bindings = heard.2.bindings ∧
      rest.2.evaluator.unit = heard.2.evaluator.unit ∧
      (converse d lines).output = transcript heard.1 ∧
      (converse d (lines.eraseIdx n)).output = transcript rest.1 ∧
      (converse d (lines.eraseIdx n)).status = (converse d lines).status := by
  intro d heard rest
  obtain ⟨hreplies, hafter⟩ := Dialogue.forall₂_hear_eraseIdx
    (Dialogue.below_new style unit stack) h hproblem.ne_nil hforeseen
  obtain ⟨houtput, hstatus⟩ := converse_eq d lines
  obtain ⟨houtput', hstatus'⟩ := converse_eq d (lines.eraseIdx n)
  refine ⟨hreplies, hafter.bindings, hafter.evaluator.unit, houtput, houtput', ?_⟩
  have hforeseen' : ∀ f, .error f ∉ rest.1 := by
    intro f hf
    obtain ⟨r', hmem, hsays⟩ := exists_of_forall₂ hreplies.flip hf
    rcases hsays with ⟨-, hr⟩ | rfl
    · cases hr
    · exact hforeseen f (List.mem_of_mem_eraseIdx hmem)
  rw [hstatus, hstatus', ending_of_foreseen hforeseen, ending_of_foreseen hforeseen']

/-- Of two bindings on a line the second is none, so the first is not made either. -/
theorem hear_eraseIdx_of_isProblem_let :
    let d := Dialogue.new .people .rad
    let lines := ["let x=3".toList, "let x=4;y".toList, "x*4".toList]
    let refused := [problemLine (Failure.malformed (.notBinding "y")).message]
    (d.hear lines).1 = [.ok (.shows []), .ok (.shows refused), .ok (.shows ["12"])] ∧
      IsProblem .people refused ∧
      (d.hear (lines.eraseIdx 1)).1 = [.ok (.shows []), .ok (.shows ["12"])] := by
  intro d lines refused
  have hheard :
      (d.hear lines).1 = [.ok (.shows []), .ok (.shows refused), .ok (.shows ["12"])] := by
    decide +kernel
  have hreply : (d.hear lines).1[1]? = some (.ok (.shows refused)) := by
    rw [hheard]
    rfl
  have hproblem : IsProblem .people refused := .command _
  have hforeseen : ∀ f, .error f ∉ (d.hear lines).1 := by
    rw [hheard]
    simp
  obtain ⟨hreplies, -⟩ :=
    hear_eraseIdx_of_isProblem .people .rad .boundless hreply hproblem hforeseen
  refine ⟨hheard, hproblem, ?_⟩
  -- with room for everything nothing is too complex
  have hequal : List.Forall₂ Eq (d.hear (lines.eraseIdx 1)).1 ((d.hear lines).1.eraseIdx 1) :=
    hreplies.imp fun r r' hr => hr.resolve_left fun hstop => nomatch hstop.1
  rw [List.forall₂_eq_eq_eq] at hequal
  rw [hequal, hheard]
  rfl

/-- Ten open calls are enough for a text in five pairs of brackets, but not behind two names: there
it has to be remembered, and the line that it was read for does not succeed. -/
theorem hear_recalled_brackets :
    let d := Dialogue.new .people .rad ⟨some 10, fun _ => true⟩
    let lines := ["let a=b;b=(((((1)))))".toList, "b+q".toList, "a".toList]
    let refused := [problemLine (Failure.undefined (.unbound "q")).message]
    let tooComplex := [problemLine Failure.tooComplex.message]
    (d.hear lines).1 = [.ok (.shows []), .ok (.shows refused), .ok (.shows ["1"])] ∧
      (d.hear (lines.eraseIdx 1)).1 = [.ok (.shows []), .ok (.shows tooComplex)] := by
  decide +kernel

end CommandLine

end Reckon
