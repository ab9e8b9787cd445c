import Mathlib.Logic.Relation
import Reckon.Tree.Value

/-!
# What bound names refer to

A bound name stands for a tree: a number, or what the reader makes of a text (`standsFor?`). The
variables of that tree are the names that it refers to. `Reaches` follows references from the
variables of a tree; a name that is reached from itself is defined in terms of itself (`IsCyclic`).
The names of constants stand for no tree, whatever they are bound to.
-/

namespace Reckon

/-- The tree of a bound value: a text that is a number alone is not read. -/
def Bound.tree (bound : Bound) : Except Failure Tree :=
  match bound.content with
  | .error f => .error f
  | .ok (.inl a) => .ok (.number a)
  | .ok (.inr s) =>
    let s := Text.trim s
    if Formula.isLiteral s then
      match Decimal.ofText? s with
      | some a => .ok (.number a)
      | none => .error (.signal .invalidOperation)
    else Formula.readFormula s

namespace Bindings

/-- What a name stands for, unless it is the name of a constant or bound to nothing. -/
def standsFor? (b : Bindings) (x : String) : Option (Except Failure Tree) :=
  if (namedConstant? x).isSome then none else (b.lookup? x).map Bound.tree

/-- The text that `x` is bound to mentions `y`. -/
def RefersTo (b : Bindings) (x y : String) : Prop :=
  ∃ t, b.standsFor? x = some (.ok t) ∧ y ∈ t.names

/-- A variable of the tree is `x`, or leads to `x` through bound texts. -/
def Reaches (b : Bindings) (t : Tree) (x : String) : Prop :=
  ∃ y ∈ t.names, Relation.ReflTransGen b.RefersTo y x

/-- The text that `x` is bound to leads to `x` again. -/
def IsCyclic (b : Bindings) (x : String) : Prop :=
  Relation.TransGen b.RefersTo x x

variable {b : Bindings} {x y : String}

/-- What is true of everything that is bound is true of what a name is bound to. -/
theorem of_lookup?_eq_some {P : Bound → Prop} (h : ∀ p ∈ b, P p.2) {bound : Bound}
    (hx : b.lookup? x = some bound) : P bound := by
  obtain ⟨p, hfind, rfl⟩ := Option.map_eq_some_iff.mp hx
  exact h p (List.mem_of_find?_eq_some hfind)

theorem standsFor?_eq_some_iff {r : Except Failure Tree} :
    b.standsFor? x = some r ↔
      namedConstant? x = none ∧ ∃ bound, b.lookup? x = some bound ∧ bound.tree = r := by
  rw [standsFor?]
  cases namedConstant? x with
  | some a => simp
  | none => simp

theorem standsFor?_eq_none_iff :
    b.standsFor? x = none ↔ (namedConstant? x).isSome ∨ b.lookup? x = none := by
  rw [standsFor?]
  cases namedConstant? x with
  | some a => simp
  | none => simp

/-- Only what is bound stands for something. -/
theorem mem_names_of_standsFor? {r : Except Failure Tree} (h : b.standsFor? x = some r) :
    x ∈ b.map (·.1) := by
  obtain ⟨-, bound, hlookup, -⟩ := standsFor?_eq_some_iff.mp h
  obtain ⟨⟨y, bound'⟩, hfind, -⟩ := Option.map_eq_some_iff.mp hlookup
  have hy : y = x := by simpa using List.find?_some hfind
  exact List.mem_map.mpr ⟨(y, bound'), List.mem_of_find?_eq_some hfind, hy⟩

theorem standsFor?_nil (x : String) : standsFor? [] x = none :=
  standsFor?_eq_none_iff.mpr (.inr rfl)

/-! ### What a tree reaches -/

theorem not_reaches_number (a : Decimal) (x : String) : ¬b.Reaches (.number a) x := by
  rintro ⟨y, hy, -⟩
  cases hy

theorem reaches_self : b.Reaches (.var x) x :=
  ⟨x, List.mem_singleton_self x, .refl⟩

theorem reaches_var :
    b.Reaches (.var x) y ↔ y = x ∨ ∃ t, b.standsFor? x = some (.ok t) ∧ b.Reaches t y := by
  constructor
  · rintro ⟨z, hz, h⟩
    obtain rfl := List.mem_singleton.mp hz
    rcases h.cases_head with rfl | ⟨w, ⟨t, ht, hw⟩, h⟩
    · exact .inl rfl
    · exact .inr ⟨t, ht, w, hw, h⟩
  · rintro (rfl | ⟨t, ht, w, hw, h⟩)
    · exact reaches_self
    · exact ⟨x, List.mem_singleton_self x, .head ⟨t, ht, hw⟩ h⟩

theorem reaches_unary {op : Unary} {a : Tree} : b.Reaches (.unary op a) x ↔ b.Reaches a x :=
  Iff.rfl

theorem reaches_binary {op : Binary} {l r : Tree} :
    b.Reaches (.binary op l r) x ↔ b.Reaches l x ∨ b.Reaches r x := by
  simp only [Reaches, Tree.names, List.mem_append, or_and_right, exists_or]

/-- A name is defined in terms of itself if what it stands for reaches it. -/
theorem isCyclic_iff : b.IsCyclic x ↔ ∃ t, b.standsFor? x = some (.ok t) ∧ b.Reaches t x := by
  rw [IsCyclic, Relation.TransGen.head'_iff]
  constructor
  · rintro ⟨y, ⟨t, ht, hy⟩, h⟩
    exact ⟨t, ht, y, hy, h⟩
  · rintro ⟨t, ht, y, hy, h⟩
    exact ⟨y, ⟨t, ht, hy⟩, h⟩

/-! ### Names being resolved -/

/-- All of the names lead to all variables of the tree. -/
def LeadTo (b : Bindings) (resolving : List String) (t : Tree) : Prop :=
  ∀ y ∈ resolving, ∀ x ∈ t.names, Relation.TransGen b.RefersTo y x

namespace LeadTo
variable {resolving : List String}

theorem nil (t : Tree) : b.LeadTo [] t :=
  fun _ hy => nomatch hy

/-- A name that is met again is defined in terms of itself. -/
theorem isCyclic (h : b.LeadTo resolving (.var x)) (hx : x ∈ resolving) : b.IsCyclic x :=
  h x hx x (List.mem_singleton_self x)

theorem follow {t : Tree} (h : b.LeadTo resolving (.var x)) (hx : b.standsFor? x = some (.ok t)) :
    b.LeadTo (x :: resolving) t := by
  intro y hy z hz
  have hxz : b.RefersTo x z := ⟨t, hx, hz⟩
  rcases List.mem_cons.mp hy with rfl | hy
  · exact .single hxz
  · exact (h y hy x (List.mem_singleton_self x)).tail hxz

theorem left {op : Binary} {l r : Tree} (h : b.LeadTo resolving (.binary op l r)) :
    b.LeadTo resolving l :=
  fun y hy x hx => h y hy x (List.mem_append_left _ hx)

theorem right {op : Binary} {l r : Tree} (h : b.LeadTo resolving (.binary op l r)) :
    b.LeadTo resolving r :=
  fun y hy x hx => h y hy x (List.mem_append_right _ hx)

end LeadTo

end Bindings

/-! ### Variables -/

/-- A name that stands for nothing has the value of a constant, or none at all. -/
def freeValue (x : String) : Except Failure Decimal :=
  match namedConstant? x with
  | some a => .ok a
  | none => .error (.undefined (.unbound x))

namespace Tree
variable {b : Bindings} {resolving : List String} {x : String}

theorem resolve_of_standsFor?_eq_none (follow : List Char → Except Failure Decimal)
    (h : b.standsFor? x = none) : resolve b resolving follow x = freeValue x := by
  rw [resolve, freeValue]
  cases hc : namedConstant? x with
  | some a => rfl
  | none =>
    have hlookup : b.lookup? x = none := by
      simpa [hc] using Bindings.standsFor?_eq_none_iff.mp h
    rw [hlookup]
    rfl

theorem resolve_of_mem {r : Except Failure Tree} (follow : List Char → Except Failure Decimal)
    (h : b.standsFor? x = some r) (hx : x ∈ resolving) :
    resolve b resolving follow x = .error (.undefined (.cyclic x)) := by
  obtain ⟨hc, bound, hlookup, -⟩ := Bindings.standsFor?_eq_some_iff.mp h
  simp only [resolve, hc, hlookup, List.contains_iff_mem.mpr hx, ↓reduceIte]
  rfl

/-- A variable has the value of the tree that it stands for; numbers are not evaluated. -/
theorem resolve_of_not_mem {r : Except Failure Tree} {value : Tree → Except Failure Decimal}
    (h : b.standsFor? x = some r) (hx : x ∉ resolving) :
    let resolved := resolve b resolving (fun s => Formula.readFormula s >>= value) x
    resolved = r >>= value ∨ ∃ a, r = .ok (.number a) ∧ resolved = .ok a := by
  obtain ⟨hc, bound, hlookup, rfl⟩ := Bindings.standsFor?_eq_some_iff.mp h
  have hcontains : resolving.contains x = false := by simpa using hx
  simp only [resolve, hc, hlookup, hcontains, Bool.false_eq_true, ↓reduceIte, Bound.tree]
  rcases bound.content with f | a | s
  · exact .inl rfl
  · exact .inr ⟨a, rfl, rfl⟩
  · dsimp only
    cases Formula.isLiteral (Text.trim s) with
    | false => exact .inl rfl
    | true =>
      cases Decimal.ofText? (Text.trim s) with
      | none => exact .inl rfl
      | some a => exact .inr ⟨a, rfl, rfl⟩

end Tree

end Reckon
