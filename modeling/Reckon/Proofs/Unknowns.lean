import Mathlib.Data.List.Basic
import Reckon.Proofs.Calls
import Reckon.Proofs.Spelling

/-!
# The variables of a formula

A differentiator remembers the variables of the formula that it read last, each once and in the
order in which they first occur in the text (`read_inOrder`).
-/

namespace Reckon

/-! ### First occurrences -/

section
variable {α : Type} [BEq α] [LawfulBEq α]

theorem nodup_eraseDups (l : List α) : l.eraseDups.Nodup := by
  match l with
  | [] => exact List.nodup_nil
  | a :: l =>
    rw [List.eraseDups_cons, List.nodup_cons]
    refine ⟨?_, nodup_eraseDups _⟩
    simp [List.mem_eraseDups]
termination_by l.length
decreasing_by
  have := List.length_filter_le (fun b => !b == a) l
  simp only [List.length_cons]
  omega

/-- What is left of a list without repetitions is in the order in which it first occurs, also where
some elements were left out. -/
theorem pairwise_eraseDups_filter (p : α → Bool) (l : List α) :
    (l.filter p).eraseDups.Pairwise fun x y => l.idxOf x < l.idxOf y := by
  induction l generalizing p with
  | nil => exact List.Pairwise.nil
  | cons a l ih =>
    -- the elements of `l` other than `a` are one place further in `a :: l`
    have hshift : ∀ q : α → Bool, (∀ x, q x = true → x ≠ a) →
        (l.filter q).eraseDups.Pairwise fun x y => (a :: l).idxOf x < (a :: l).idxOf y := by
      intro q hq
      refine (ih q).imp_of_mem ?_
      intro x y hx hy hlt
      have hxa := hq x (List.mem_filter.mp (List.mem_eraseDups.mp hx)).2
      have hya := hq y (List.mem_filter.mp (List.mem_eraseDups.mp hy)).2
      rw [List.idxOf_cons_ne l hxa.symm, List.idxOf_cons_ne l hya.symm]
      exact Nat.succ_lt_succ hlt
    cases hp : p a with
    | true =>
      rw [List.filter_cons_of_pos hp, List.eraseDups_cons, List.filter_filter]
      refine List.pairwise_cons.mpr ⟨?_, hshift _ ?_⟩
      · intro y hy
        have hya : y ≠ a := by
          have := (List.mem_filter.mp (List.mem_eraseDups.mp hy)).2
          rw [Bool.and_eq_true] at this
          simpa using this.1
        rw [List.idxOf_cons_self, List.idxOf_cons_ne l hya.symm]
        exact Nat.succ_pos _
      · intro x hx
        rw [Bool.and_eq_true] at hx
        simpa using hx.1
    | false =>
      rw [List.filter_cons_of_neg (by simp [hp])]
      refine hshift p ?_
      rintro x hx rfl
      rw [hp] at hx
      cases hx

end

/-! ### The variables of a text -/

namespace Formula

theorem readFormula_eq {source s : List Char} (hp : prepare source = .ok s)
    (hv : validate s = .ok ()) : readFormula source = read s := by
  rw [readFormula, hp]
  change (validate s >>= fun _ => read s) = read s
  rw [hv]
  rfl

theorem mem_names_iff {t : Tree} {tokens : List (List Char)} (h : InOrder t tokens) (x : String) :
    x ∈ t.names ↔ x.toList ∈ tokens ∧ isName x.toList = true := by
  rw [h.names_eq, List.mem_map]
  constructor
  · rintro ⟨s, hs, rfl⟩
    rw [String.toList_ofList]
    exact List.mem_filter.mp hs
  · intro hx
    exact ⟨x.toList, List.mem_filter.mpr hx, String.ofList_toList⟩

theorem idxOf_map_ofList (tokens : List (List Char)) (x : String) :
    (tokens.map String.ofList).idxOf x = tokens.idxOf x.toList := by
  induction tokens with
  | nil => rfl
  | cons u tokens ih =>
    rw [List.map_cons, List.idxOf_cons, List.idxOf_cons, ih]
    congr 1
    rw [Bool.eq_iff_iff, beq_iff_eq, beq_iff_eq]
    constructor
    · rintro rfl
      exact String.toList_ofList.symm
    · rintro rfl
      exact String.ofList_toList

/-- The variables of a tree are in the order in which they first occur in its text. -/
theorem pairwise_unknowns {t : Tree} {tokens : List (List Char)} (h : InOrder t tokens) :
    t.unknowns.Pairwise fun x y => tokens.idxOf x.toList < tokens.idxOf y.toList := by
  have hfilter : t.names.filter (fun x => (namedConstant? x).isNone) =
      (tokens.map String.ofList).filter fun x =>
        isName x.toList && (namedConstant? x).isNone := by
    rw [h.names_eq, List.filter_map, List.filter_map, List.filter_filter]
    congr 1
    refine List.filter_congr fun u _ => ?_
    simp [Bool.and_comm]
  rw [Tree.unknowns, hfilter]
  refine (pairwise_eraseDups_filter _ _).imp fun {x y} hlt => ?_
  rwa [idxOf_map_ofList, idxOf_map_ofList] at hlt

/-- A text that is read has nested brackets, and without them it is its tree from left to right.
When such a text was prepared from a formula, the differentiator that was asked for derivatives
remembers the variables in it: each once, none of them a constant, in the order in which they first
occur. -/
theorem read_inOrder {s : List Char} {t : Tree} (h : read s = .ok t) :
    Nested s ∧ ∃ tokens : List (List Char),
      withoutBrackets s = tokens.flatten ∧ InOrder t tokens ∧
      ∀ source, prepare source = .ok s → validate s = .ok () →
        ∀ (targets : Targets) (d : Differentiator),
          let known := ((Differentiator.derivatives targets source).run d).2.unknowns
          known.Nodup ∧
          (∀ x, x ∈ known ↔
            x.toList ∈ tokens ∧ isName x.toList = true ∧ namedConstant? x = none) ∧
          known.Pairwise fun x y => tokens.idxOf x.toList < tokens.idxOf y.toList := by
  have hspells := spells_of_read h
  obtain ⟨tokens, hinOrder, htext⟩ := hspells.exists_inOrder
  refine ⟨hspells.nested, tokens, htext, hinOrder, ?_⟩
  intro source hp hv targets d
  have hread : readFormula source = .ok t := by rw [readFormula_eq hp hv, h]
  rw [Differentiator.unknowns_run_derivatives hread targets d]
  refine ⟨nodup_eraseDups _, ?_, pairwise_unknowns hinOrder⟩
  intro x
  rw [Tree.unknowns, List.mem_eraseDups, List.mem_filter, mem_names_iff hinOrder, and_assoc,
    Option.isNone_iff_eq_none]

theorem read_inOrder_signed_product :
    Nested ['-', 'x', '*', '(', 'p', 'i', '+', 'y', ')'] ∧ ∃ tokens : List (List Char),
      withoutBrackets ['-', 'x', '*', '(', 'p', 'i', '+', 'y', ')'] = tokens.flatten ∧
      InOrder (.binary .minus .zero (.binary .times (.var "x")
        (.binary .plus (.var "pi") (.var "y")))) tokens ∧
      (((Differentiator.derivatives .all ['-', 'X', '(', 'p', 'i', ' ', '+', 'y', ')']).run
        .new).2.unknowns).Pairwise fun x y => tokens.idxOf x.toList < tokens.idxOf y.toList := by
  have hp : prepare ['-', 'X', '(', 'p', 'i', ' ', '+', 'y', ')'] =
      .ok ['-', 'x', '*', '(', 'p', 'i', '+', 'y', ')'] := by
    decide +kernel
  have hv : validate ['-', 'x', '*', '(', 'p', 'i', '+', 'y', ')'] = .ok () := by
    decide +kernel
  have h : read ['-', 'x', '*', '(', 'p', 'i', '+', 'y', ')'] =
      .ok (.binary .minus .zero (.binary .times (.var "x")
        (.binary .plus (.var "pi") (.var "y")))) := by
    decide +kernel
  obtain ⟨hnested, tokens, htext, hinOrder, hknown⟩ := read_inOrder h
  exact ⟨hnested, tokens, htext, hinOrder, (hknown _ hp hv .all .new).2.2⟩

end Formula

end Reckon
