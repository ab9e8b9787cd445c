import Reckon.Proofs.Calls

/-!
# Requests to a differentiator

A differentiator remembers the variables of the formula that it read last, and it puts those of the
next formula in their place before it looks at them. So requests do not influence each other: each
is answered as by a new differentiator, on whatever call stack. The variables that are remembered
after any requests are those of the last formula that could be read, whatever became of its request
(`serve_new`).
-/

namespace Reckon.Differentiator

/-! ### Requests -/

/-- What a differentiator can be asked for. -/
inductive Request where
  | tree (s : List Char)
  /-- The derivatives alone. -/
  | differentiate (targets : Targets) (s : List Char)
  /-- The derivatives, each with its variable. -/
  | derivatives (targets : Targets) (s : List Char)

inductive Reply where
  | tree (t : Tree)
  | formulas (derivatives : List String)
  | pairs (derivatives : List (String × String))

namespace Request

def perform (request : Request) (stack : CallStack := .boundless) : Call Reply :=
  match request with
  | tree s => do return .tree (← Differentiator.tree s stack)
  | differentiate targets s => do
    return .formulas ((← Differentiator.derivatives targets s stack).map (·.2))
  | derivatives targets s => do return .pairs (← Differentiator.derivatives targets s stack)

def formula : Request → List Char
  | tree s | differentiate _ s | derivatives _ s => s

/-- The tree of the formula, if it can be read. -/
def tree? (request : Request) (stack : CallStack := .boundless) : Option Tree :=
  (stack.readFormula request.formula).toOption

/-- The variables that are remembered after the request: a formula that cannot be read leaves those
that were remembered before. -/
def remember (stack : CallStack) (unknowns : List String) (request : Request) : List String :=
  ((request.tree? stack).map Tree.unknowns).getD unknowns

end Request

/-- The replies to the requests, one after the other, and the differentiator that they leave. -/
def serve (requests : List Request) (d : Differentiator) (stack : CallStack := .boundless) :
    List (Except Failure Reply) × Differentiator :=
  match requests with
  | [] => ([], d)
  | request :: requests =>
    let first := (request.perform stack).run d
    let rest := serve requests first.2 stack
    (first.1 :: rest.1, rest.2)

section
variable (stack : CallStack)

/-! ### One request -/

theorem unknowns_run_derivatives_eq (targets : Targets) (s : List Char) (d : Differentiator) :
    ((derivatives targets s stack).run d).2.unknowns =
      ((stack.readFormula s).toOption.map Tree.unknowns).getD d.unknowns := by
  cases hread : stack.readFormula s with
  | error f =>
    rw [run_derivativesOn_of_error hread]
    rfl
  | ok t =>
    obtain ⟨d', hrun, hkept⟩ := run_derivativesOn hread targets d
    rw [hrun, hkept]
    rfl

/-- A request is answered alike by any two differentiators. -/
theorem fst_run_perform (request : Request) (d d' : Differentiator) :
    ((request.perform stack).run d).1 = ((request.perform stack).run d').1 := by
  cases request with
  | tree s =>
    rw [Request.perform, run_bind_pure, run_bind_pure, run_tree, run_tree]
    cases stack.readFormula s with
    | error f => rfl
    | ok t => rfl
  | differentiate targets s =>
    rw [Request.perform, run_bind_pure, run_bind_pure, fst_run_derivatives targets s stack d d']
  | derivatives targets s =>
    rw [Request.perform, run_bind_pure, run_bind_pure, fst_run_derivatives targets s stack d d']

/-- Once its formula is read a request leaves the variables in it, whether it is answered or not. -/
theorem unknowns_run_perform (request : Request) (d : Differentiator) :
    ((request.perform stack).run d).2.unknowns = request.remember stack d.unknowns := by
  cases request with
  | tree s =>
    rw [Request.perform, run_bind_pure, run_tree, Request.remember, Request.tree?, Request.formula]
    cases stack.readFormula s with
    | error f => rfl
    | ok t => rfl
  | differentiate targets s =>
    rw [Request.perform, run_bind_pure]
    exact unknowns_run_derivatives_eq stack targets s d
  | derivatives targets s =>
    rw [Request.perform, run_bind_pure]
    exact unknowns_run_derivatives_eq stack targets s d

/-! ### Any number of requests -/

theorem fst_serve_cons (request : Request) (requests : List Request) (d : Differentiator) :
    (serve (request :: requests) d stack).1 =
      ((request.perform stack).run d).1 ::
        (serve requests ((request.perform stack).run d).2 stack).1 :=
  rfl

theorem snd_serve_cons (request : Request) (requests : List Request) (d : Differentiator) :
    (serve (request :: requests) d stack).2 =
      (serve requests ((request.perform stack).run d).2 stack).2 :=
  rfl

theorem fst_serve (requests : List Request) (d : Differentiator) :
    (serve requests d stack).1 =
      requests.map fun request => ((request.perform stack).run new).1 := by
  induction requests generalizing d with
  | nil => rfl
  | cons request requests ih =>
    rw [fst_serve_cons, List.map_cons, ih, fst_run_perform stack request d new]

theorem unknowns_serve (requests : List Request) (d : Differentiator) :
    (serve requests d stack).2.unknowns =
      requests.foldl (Request.remember stack) d.unknowns := by
  induction requests generalizing d with
  | nil => rfl
  | cons request requests ih => rw [snd_serve_cons, List.foldl_cons, ih, unknowns_run_perform]

/-- Only the last formula that can be read counts. -/
theorem foldl_remember (requests : List Request) (unknowns : List String) :
    requests.foldl (Request.remember stack) unknowns =
      ((requests.filterMap (·.tree? stack)).getLast?.map Tree.unknowns).getD unknowns := by
  induction requests generalizing unknowns with
  | nil => rfl
  | cons request requests ih =>
    rw [List.foldl_cons, ih, Request.remember]
    cases h : request.tree? stack with
    | none =>
      rw [List.filterMap_cons, h]
      rfl
    | some t =>
      rw [List.filterMap_cons, h, List.getLast?_cons]
      cases (requests.filterMap (·.tree? stack)).getLast? with
      | none => rfl
      | some t' => rfl

/-- Requests do not influence each other, be they answered or not: every reply is that of a new
differentiator, and the variables that are remembered are those of the last formula that could be
read, if there is one. -/
theorem serve_new (requests : List Request) :
    (serve requests new stack).1 =
        requests.map (fun request => ((request.perform stack).run new).1) ∧
      (serve requests new stack).2.unknowns =
        ((requests.filterMap (·.tree? stack)).getLast?.map Tree.unknowns).getD [] :=
  ⟨fst_serve stack requests new,
    (unknowns_serve stack requests new).trans (foldl_remember stack requests [])⟩

end

/-- The name of a variable is refused, and the variables of the formula are remembered. -/
example :
    let d := (serve [.tree ['a', '+', 'b'], .derivatives (.listed ['2']) ['y', '*', 'x'],
      .differentiate .all ['(']] new).2
    d.unknowns = ["y", "x"] := by
  decide +kernel

end Reckon.Differentiator
