import Reckon.Proofs.ReaderSteps
import Reckon.Proofs.Results

/-!
# What the reader accepts

`Spells s t`: the text `s` is written for the tree `t`, every character of it for one node, or for
a pair of brackets around a text of the same kind. Whatever `read` returns, the text spells it
(`spells_of_read`). So the brackets of an accepted text are nested (`Spells.nested`), and without
them it is the tree read from left to right (`Spells.exists_inOrder`).
-/

namespace Reckon.Formula

open Reckon.Text

/-- The text of a tree. A sign may stand in front of a tree; it is the sum of nothing, or the
difference from nothing. -/
inductive Spells : List Char → Tree → Prop
  | inBrackets {s : List Char} {t : Tree} : Spells s t → Spells (Tree.inBrackets s) t
  | name {s : List Char} : isName s = true → Spells s (.var (String.ofList s))
  | number {s : List Char} {a : Decimal} : number? s = some a → Spells s (.number a)
  | sign {op : Binary} {s : List Char} {t : Tree} :
      op.isSign = true → Spells s t → Spells (op.symbol ++ s) (.binary op .zero t)
  | unary {op : Unary} {s : List Char} {t : Tree} :
      Spells s t → Spells (op.symbol ++ s) (.unary op t)
  | binary {op : Binary} {s s' : List Char} {t t' : Tree} :
      Spells s t → Spells s' t' → Spells (s ++ (op.symbol ++ s')) (.binary op t t')

/-- The text of what a chain has so far. -/
inductive SpellsFirst : List Char → Option Tree → Prop
  | none : SpellsFirst [] none
  | some {s : List Char} {t : Tree} : Spells s t → SpellsFirst s (some t)

/-! ### Reading -/

section
variable {below : List Char → Except Failure Tree} {whole : List Char}

theorem SpellsFirst.binary (op : Binary) {s s' : List Char} {first : Option Tree} {t : Tree}
    (h : SpellsFirst s first) (hop : first = .none → op.isSign = true) (ht : Spells s' t) :
    Spells (s ++ (op.symbol ++ s')) (.binary op (first.getD .zero) t) := by
  cases h with
  | none => exact .sign (hop rfl) ht
  | some h => exact .binary h ht

/-- A chain spells its tree if its operands do. The text `s` grows shorter with every operand,
while `s₀` collects what has been read. -/
theorem spells_of_readChain (hbelow : ∀ s t, below s = .ok t → Spells s t) {s₀ s : List Char}
    {first : Option Tree} {t : Tree} (h₀ : SpellsFirst s₀ first)
    (h : readChain below whole first s = .ok t) : Spells (s₀ ++ s) t := by
  by_cases hs : s = []
  · subst hs
    cases h₀ with
    | none => rw [readChain] at h; cases h
    | some h₀ =>
      rw [readChain_some_nil] at h; cases h
      simpa using h₀
  rcases hm : Operator.longestMatch s with _ | op | op
  case none =>
    obtain ⟨op, u, u', v, left, right, rfl, hlt, rfl, hleft, hright, h⟩ :=
      exists_of_readChain_operands hs hm h
    have hspells : Spells _ (.binary op left right) :=
      .binary (hbelow u left hleft) (hbelow u' right hright)
    have ih := spells_of_readChain hbelow (.some hspells) h
    cases h₀
    simpa using ih
  case some.binary =>
    obtain ⟨u, v, right, rfl, hlt, hop, hright, h⟩ := exists_of_readChain_binary hm h
    have hspells := h₀.binary op hop (hbelow u right hright)
    have ih := spells_of_readChain hbelow (.some hspells) h
    simpa using ih
  case some.unary =>
    obtain ⟨u, v, operand, rfl, hlt, rfl, hread, h⟩ := exists_of_readChain_unary hm h
    have hspells : Spells _ (.unary op operand) := .unary (hbelow u operand hread)
    have ih := spells_of_readChain hbelow (.some hspells) h
    cases h₀
    simpa using ih
termination_by s.length

end

theorem spells_of_readLevels {levels : Nat} {s : List Char} {t : Tree}
    (h : readLevels levels s = .ok t) : Spells s t := by
  induction levels generalizing s t with
  | zero => cases h
  | succ levels ih =>
    rw [readLevels] at h
    split at h
    · cases h
    split at h
    · rename_i inner henclosed
      rcases eq_of_enclosed? henclosed with rfl | rfl
      · exact .inBrackets (ih h)
      · cases levels <;> cases h
    split at h
    · rename_i hname
      cases h
      exact .name hname
    split at h
    · rename_i hnumber
      cases h
      exact .number hnumber
    · exact spells_of_readChain (fun s t hst => ih hst) .none h

theorem spells_of_read {s : List Char} {t : Tree} (h : read s = .ok t) : Spells s t :=
  spells_of_readLevels h

/-! ### Brackets -/

/-- The brackets of an accepted text are nested. -/
theorem Spells.nested {s : List Char} {t : Tree} (h : Spells s t) : Nested s := by
  induction h with
  | inBrackets _ ih => exact ih.inBrackets
  | name h => exact .of_forall (isBracket_of_isName h)
  | number h => exact .of_forall (isBracket_of_isNumber (isNumber_of_number? h))
  | @sign op _ _ _ _ ih => exact (Nested.of_forall (isBracket_of_mem_symbol (.binary op))).append ih
  | @unary op _ _ _ ih => exact (Nested.of_forall (isBracket_of_mem_symbol (.unary op))).append ih
  | @binary op _ _ _ _ _ _ ih ih' =>
    exact ih.append ((Nested.of_forall (isBracket_of_mem_symbol (.binary op))).append ih')

def withoutBrackets (s : List Char) : List Char :=
  s.filter (!isBracket ·)

theorem withoutBrackets_append (s s' : List Char) :
    withoutBrackets (s ++ s') = withoutBrackets s ++ withoutBrackets s' :=
  List.filter_append ..

theorem withoutBrackets_eq_self {s : List Char} (h : ∀ c ∈ s, isBracket c = false) :
    withoutBrackets s = s :=
  List.filter_eq_self.mpr fun c hc => by simp [h c hc]

theorem withoutBrackets_symbol (op : Operator) : withoutBrackets op.symbol = op.symbol :=
  withoutBrackets_eq_self (isBracket_of_mem_symbol op)

theorem withoutBrackets_inBrackets (s : List Char) :
    withoutBrackets (Tree.inBrackets s) = withoutBrackets s := by
  simp [Tree.inBrackets, withoutBrackets, isBracket]

/-! ### Reading a tree from left to right -/

/-- The parts of a text without brackets, one for each node of the tree from left to right. The
number that a sign without a left operand stands behind has an empty part. -/
inductive InOrder : Tree → List (List Char) → Prop
  | name {s : List Char} : isName s = true → InOrder (.var (String.ofList s)) [s]
  | number {s : List Char} {a : Decimal} : number? s = some a → InOrder (.number a) [s]
  | sign {op : Binary} {t : Tree} {u : List (List Char)} :
      op.isSign = true → InOrder t u → InOrder (.binary op .zero t) ([] :: op.symbol :: u)
  | unary {op : Unary} {t : Tree} {u : List (List Char)} :
      InOrder t u → InOrder (.unary op t) (op.symbol :: u)
  | binary {op : Binary} {t t' : Tree} {u u' : List (List Char)} :
      InOrder t u → InOrder t' u' → InOrder (.binary op t t') (u ++ op.symbol :: u')

theorem Spells.exists_inOrder {s : List Char} {t : Tree} (h : Spells s t) :
    ∃ tokens : List (List Char), InOrder t tokens ∧ withoutBrackets s = tokens.flatten := by
  induction h with
  | inBrackets _ ih =>
    obtain ⟨u, hu, heq⟩ := ih
    exact ⟨u, hu, by rw [withoutBrackets_inBrackets, heq]⟩
  | name h =>
    refine ⟨_, .name h, ?_⟩
    rw [withoutBrackets_eq_self (isBracket_of_isName h)]
    simp
  | number h =>
    refine ⟨_, .number h, ?_⟩
    rw [withoutBrackets_eq_self (isBracket_of_isNumber (isNumber_of_number? h))]
    simp
  | @sign op _ _ hop _ ih =>
    obtain ⟨u, hu, heq⟩ := ih
    refine ⟨_, .sign hop hu, ?_⟩
    have hop := withoutBrackets_symbol (.binary op)
    rw [Operator.symbol_binary] at hop
    simp [withoutBrackets_append, hop, heq]
  | @unary op _ _ _ ih =>
    obtain ⟨u, hu, heq⟩ := ih
    refine ⟨_, .unary hu, ?_⟩
    have hop := withoutBrackets_symbol (.unary op)
    rw [Operator.symbol_unary] at hop
    simp [withoutBrackets_append, hop, heq]
  | @binary op _ _ _ _ _ _ ih ih' =>
    obtain ⟨u, hu, heq⟩ := ih
    obtain ⟨u', hu', heq'⟩ := ih'
    refine ⟨_, .binary hu hu', ?_⟩
    have hop := withoutBrackets_symbol (.binary op)
    rw [Operator.symbol_binary] at hop
    simp [withoutBrackets_append, hop, heq, heq']

/-- The names of a tree are the parts that are names. -/
theorem InOrder.names_eq {t : Tree} {tokens : List (List Char)} (h : InOrder t tokens) :
    t.names = (tokens.filter isName).map String.ofList := by
  induction h with
  | name h => simp [Tree.names, h]
  | number h => simp [Tree.names, isName_of_isNumber (isNumber_of_number? h)]
  | @sign op _ _ _ _ ih =>
    have hop : isName op.symbol = false := isName_symbol (.binary op)
    simp [Tree.names, Tree.zero, ih, hop, isName_nil]
  | @unary op _ _ _ ih =>
    have hop : isName op.symbol = false := isName_symbol (.unary op)
    simp [Tree.names, ih, hop]
  | @binary op _ _ _ _ _ _ ih ih' =>
    have hop : isName op.symbol = false := isName_symbol (.binary op)
    simp [Tree.names, ih, ih', hop]

end Reckon.Formula
