import Reckon.Proofs.Calls
import Reckon.Proofs.NeatNames
import Reckon.Proofs.Prepared

/-!
# The variables that derivatives are asked for

The names that are asked for have no capitals (`isSmall_of_mem_resolve`), and neither have those in
a formula. So two of them that differ only in capitals are the same (`lowercase_eq_iff`).
-/

namespace Reckon

namespace Text

theorem mem_of_mem_pieces {separator : Char} {s piece : List Char}
    (h : piece ∈ pieces separator s) {c : Char} (hc : c ∈ piece) : c ∈ s := by
  induction s generalizing piece with
  | nil =>
    obtain rfl := List.mem_singleton.mp h
    cases hc
  | cons d s ih =>
    rw [pieces] at h
    split at h
    · rcases List.mem_cons.mp h with rfl | h
      · cases hc
      · exact List.mem_cons_of_mem d (ih h hc)
    split at h
    · obtain rfl := List.mem_singleton.mp h
      rw [List.mem_singleton.mp hc]
      exact List.mem_cons_self ..
    · rename_i first rest hpieces
      rcases List.mem_cons.mp h with rfl | h
      · rcases List.mem_cons.mp hc with rfl | hc
        · exact List.mem_cons_self ..
        · refine List.mem_cons_of_mem d (ih ?_ hc)
          rw [hpieces]
          exact List.mem_cons_self ..
      · refine List.mem_cons_of_mem d (ih ?_ hc)
        rw [hpieces]
        exact List.mem_cons_of_mem first h

theorem lowercase_eq_self {s : List Char} (hsmall : ∀ c ∈ s, IsSmall c)
    (hword : ∀ c ∈ s, isWordChar c = true) : lowercase s = s := by
  refine Formula.lowercaseFrom_eq_self fun c hc => ?_
  have h := hword c hc
  have hcapital := (hsmall c hc).1
  rw [isWordChar, Bool.or_eq_true, isAsciiLetter_iff, isAsciiDigit_iff] at h
  rw [Formula.isPlainChar_iff]
  omega

theorem isSmall_of_isPlainChar {c : Char} (h : Formula.isPlainChar c = true) : IsSmall c := by
  rw [Formula.isPlainChar_iff] at h
  refine ⟨h.2.2, ?_⟩
  rintro rfl
  revert h
  decide

end Text

namespace Targets

/-- The names that are asked for have no capitals. -/
theorem isSmall_of_mem_resolve {targets : Targets} {known : List String}
    (hknown : ∀ y ∈ known, ∀ c ∈ y.toList, Text.IsSmall c) {name : List Char}
    (h : name ∈ targets.resolve known) : ∀ c ∈ name, Text.IsSmall c := by
  have hall : name ∈ resolve known .all → ∀ c ∈ name, Text.IsSmall c := by
    intro h
    rw [resolve] at h
    split at h
    · obtain rfl := List.mem_singleton.mp h
      intro c hc
      obtain rfl := List.mem_singleton.mp hc
      exact Text.isSmall_of_le (by decide)
    · obtain ⟨y, hy, rfl⟩ := List.mem_map.mp h
      exact hknown y hy
  cases targets with
  | all => exact hall h
  | each names =>
    obtain ⟨u, -, rfl⟩ := List.mem_map.mp h
    intro c hc
    exact Formula.isSmall_of_mem_normalize hc
  | listed text =>
    cases text with
    | nil => exact hall h
    | cons c text =>
      have hpiece : name ∈ Text.pieces ';' (Formula.normalize (c :: text)) := by
        simp only [resolve] at h
        split at h
        · exact List.mem_of_mem_dropLast h
        · exact h
      intro e he
      exact Formula.isSmall_of_mem_normalize (Text.mem_of_mem_pieces hpiece he)

theorem isName_of_checkName {s : List Char} (h : checkName s = .ok ⟨⟩) :
    Formula.isName s = true := by
  by_contra hname
  rw [checkName] at h
  simp only [hname, Bool.not_false, ↓reduceIte] at h
  split at h
  · cases h
  · obtain ⟨⟨⟩, -, h⟩ := bind_eq_ok_iff.mp h
    cases h

/-- Names with a value are told apart from the variable that is asked for by their characters. -/
theorem lowercase_eq_iff {source p : List Char} {t : Tree} {x : String} {targets : Targets}
    (hp : Formula.prepare source = .ok p) (hread : Formula.read p = .ok t)
    (hx : x.toList ∈ targets.resolve t.unknowns) (hcheck : checkName x.toList = .ok ⟨⟩) :
    ∀ y ∈ t.names, (Text.lowercase y.toList = Text.lowercase x.toList ↔ y = x) := by
  have hneat : ∀ y ∈ t.names, ∀ c ∈ y.toList, Formula.isPlainChar c = true := by
    intro y hy
    exact Formula.isPlainChar_of_isNeat (Formula.isNeat_of_read hp hread hy).1
  have hsmall : ∀ c ∈ x.toList, Text.IsSmall c := by
    refine isSmall_of_mem_resolve ?_ hx
    intro y hy c hc
    rw [Tree.unknowns, List.mem_eraseDups, List.mem_filter] at hy
    exact Text.isSmall_of_isPlainChar (hneat y hy.1 c hc)
  have hword : ∀ c ∈ x.toList, Text.isWordChar c = true := by
    intro c hc
    rcases Formula.mem_isName (isName_of_checkName hcheck) hc with hword | rfl
    · exact hword
    · exact absurd rfl (hsmall _ hc).2
  intro y hy
  rw [Text.lowercase_eq_self hsmall hword]
  rw [show Text.lowercase y.toList = y.toList from Formula.lowercaseFrom_eq_self (hneat y hy)]
  exact String.toList_inj

end Targets

end Reckon
