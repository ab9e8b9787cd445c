import Reckon.Proofs.TargetNames
import Reckon.Proofs.Unknowns
import Reckon.Proofs.Validated

/-!
# Answers in order

Derivatives may be asked for with respect to no variable in particular, to the names in a text with
semicolons between them, or to those in a list. Where nothing is named, the answers are for the
variables of the formula, in the order in which they first occur in it. The names in a text count as
a list of names, and the answers for a list of names are those for each of them alone, in order
(`answersInOrder`).

Blanks are no name. A text of blanks only is a list of no names, and nothing is answered, unlike for
the empty text.
-/

namespace Reckon

/-! ### Pieces of texts -/

namespace Text
variable {separator : Char} {s u : List Char}

theorem pieces_eq_splitOn (separator : Char) (s : List Char) :
    pieces separator s = s.splitOn separator := by
  induction s with
  | nil => rfl
  | cons c s ih =>
    rw [pieces, ih, List.splitOn_cons_eq_if_modifyHead]
    simp only [beq_iff_eq]
    split
    · rfl
    · cases h : s.splitOn separator with
      | nil => exact absurd h (List.splitOn_ne_nil separator s)
      | cons piece rest => rfl

theorem pieces_of_not_mem (h : separator ∉ s) : pieces separator s = [s] := by
  rw [pieces_eq_splitOn, List.splitOn_eq_singleton h]

theorem pieces_append (h : separator ∉ u) (v : List Char) :
    pieces separator (u ++ separator :: v) = u :: pieces separator v := by
  rw [pieces_eq_splitOn, pieces_eq_splitOn, List.splitOn_append_cons_self_of_not_mem h]

end Text

namespace Formula
variable {s : List Char}

theorem not_mem_normalize (h : ';' ∉ s) : ';' ∉ normalize s := by
  intro hmem
  rcases Text.mem_of_mem_lowercaseFrom hmem with hsmall | ⟨hmem, -⟩
  · revert hsmall
    decide
  · exact h (List.mem_filter.mp hmem).1

/-- Names are made small each on its own. -/
theorem pieces_normalize (s : List Char) :
    Text.pieces ';' (normalize s) = (Text.pieces ';' s).map normalize := by
  obtain ⟨n, hn⟩ : ∃ n, n = s.length := ⟨_, rfl⟩
  induction n using Nat.strong_induction_on generalizing s with
  | _ n ih =>
    subst hn
    by_cases hmem : ';' ∈ s
    · obtain ⟨u, v, rfl, hu⟩ := List.eq_append_cons_of_mem hmem
      have hlt : v.length < (u ++ ';' :: v).length := by
        rw [List.length_append, List.length_cons]
        omega
      rw [normalize_append_mark (by decide), Text.pieces_append (not_mem_normalize hu),
        Text.pieces_append hu, List.map_cons, ih v.length hlt v rfl]
    · rw [Text.pieces_of_not_mem hmem, Text.pieces_of_not_mem (not_mem_normalize hmem)]
      rfl

theorem normalize_eq_nil_iff : normalize s = [] ↔ ∀ c ∈ s, Text.isBlank c = true := by
  have hlower : ∀ {before s : List Char}, Text.lowercaseFrom before s = [] ↔ s = [] := by
    intro before s
    cases s with
    | nil => exact Iff.rfl
    | cons c s =>
      refine iff_of_false (fun h => ?_) (List.cons_ne_nil c s)
      have hfirst := (List.append_eq_nil_iff.mp h).1
      revert hfirst
      split
      · exact List.cons_ne_nil _ _
      split
      · split
        · exact List.cons_ne_nil _ _
        · exact List.cons_ne_nil _ _
      · exact List.cons_ne_nil _ _
  rw [normalize, Text.lowercase, hlower, Text.squeeze, List.filter_eq_nil_iff]
  simp

end Formula

/-! ### The names that are asked for -/

namespace Targets
variable {known : List String} {text s : List Char}

/-- The variables of which derivatives are taken where none is named. -/
def unnamed (known : List String) : List String :=
  if known.isEmpty then [defaultName] else known

/-- The names in a text with semicolons between them. If the last one is blank, it does not count.
-/
def namesIn (text : List Char) : List (List Char) :=
  let names := Text.pieces ';' text
  if names.getLast?.any (·.all Text.isBlank) then names.dropLast else names

theorem resolve_unnamed {targets : Targets} (h : targets = .all ∨ targets = .listed []) :
    targets.resolve known = (unnamed known).map (·.toList) := by
  rcases h with rfl | rfl
  all_goals
    rw [resolve, unnamed]
    split <;> rfl

/-- The names in a text are asked for like those in a list. -/
theorem resolve_listed (h : text ≠ []) :
    (listed text).resolve known = (each (namesIn text)).resolve known := by
  obtain ⟨c, text, rfl⟩ := List.exists_cons_of_ne_nil h
  have hlast : ∀ names : List (List Char), (names.map Formula.normalize).getLast? = some [] ↔
      names.getLast?.any (·.all Text.isBlank) = true := by
    intro names
    rw [List.getLast?_map]
    cases names.getLast? with
    | none => simp
    | some name => simp [Formula.normalize_eq_nil_iff]
  simp only [resolve, Formula.pieces_normalize, namesIn, hlast]
  split
  · rw [List.map_dropLast]
  · rfl

theorem namesIn_eq_nil_iff : namesIn text = [] ↔ ∀ c ∈ text, Text.isBlank c = true := by
  by_cases hmem : ';' ∈ text
  · refine iff_of_false ?_ fun hblank => absurd (hblank _ hmem) (by decide)
    obtain ⟨u, v, rfl, hu⟩ := List.eq_append_cons_of_mem hmem
    have hne : Text.pieces ';' v ≠ [] := by
      rw [Text.pieces_eq_splitOn]
      exact List.splitOn_ne_nil ';' v
    rw [namesIn, Text.pieces_append hu]
    split
    · rw [List.dropLast_cons_of_ne_nil hne]
      exact List.cons_ne_nil _ _
    · exact List.cons_ne_nil _ _
  · rw [namesIn, Text.pieces_of_not_mem hmem]
    simp only [List.getLast?_singleton, Option.any_some, List.all_eq_true, List.dropLast_singleton]
    split
    · rename_i hblank
      exact iff_of_true rfl hblank
    · rename_i hblank
      exact iff_of_false (List.cons_ne_nil _ _) hblank

/-- Nothing is asked for by an empty list, and by a text of blanks. -/
theorem resolve_eq_nil_iff {targets : Targets} :
    targets.resolve known = [] ↔ targets = .each [] ∨
      ∃ text, text ≠ [] ∧ (∀ c ∈ text, Text.isBlank c = true) ∧ targets = .listed text := by
  have hunnamed : ∀ {targets : Targets}, targets = .all ∨ targets = .listed [] →
      targets.resolve known ≠ [] := by
    intro targets h hnil
    rw [resolve_unnamed h, List.map_eq_nil_iff, unnamed] at hnil
    split at hnil
    · cases hnil
    · rename_i hknown
      exact hknown (List.isEmpty_iff.mpr hnil)
  have heach : ∀ {names : List (List Char)}, (each names).resolve known = [] ↔ names = [] :=
    List.map_eq_nil_iff
  cases targets with
  | all => exact iff_of_false (hunnamed (.inl rfl)) (by simp)
  | each names => simp [heach]
  | listed text =>
    by_cases hne : text = []
    · exact iff_of_false (hunnamed (.inr (by rw [hne]))) (by simp [hne])
    · rw [resolve_listed hne, heach, namesIn_eq_nil_iff]
      simp [hne]

theorem checkName_name {x : Formula.Name} (h : Formula.IsNeat x.chars) :
    checkName x.chars = .ok ⟨⟩ := by
  have hne : x.chars ≠ [] := Formula.Phrase.text_ne_nil (.name x)
  have hvalid : Formula.validate x.chars = .ok () := Formula.Phrase.validate_text (.name x) h
  have hname : Formula.isName x.chars = true := Formula.Phrase.isName_name x
  rw [checkName, if_neg (by simpa using hne), hvalid, hname]
  rfl

/-- The variables of a formula are names that may be asked for, and so is the default one. -/
theorem of_mem_unnamed {source : List Char} {t : Tree} (h : Formula.readFormula source = .ok t)
    {x : String} (hx : x ∈ unnamed t.unknowns) :
    Formula.normalize x.toList = x.toList ∧ checkName x.toList = .ok ⟨⟩ := by
  suffices hname : ∃ n : Formula.Name, n.chars = x.toList ∧ Formula.IsNeat n.chars by
    obtain ⟨n, hn, hneat⟩ := hname
    rw [← hn]
    exact ⟨Formula.normalize_eq_self (Formula.isPlainChar_of_isNeat hneat), checkName_name hneat⟩
  rw [unnamed] at hx
  split at hx
  · obtain rfl := List.mem_singleton.mp hx
    exact ⟨⟨['x'], by decide, by decide⟩, rfl, ['x'], [], rfl, by decide, by decide, by decide⟩
  · rw [Tree.unknowns, List.mem_eraseDups, List.mem_filter] at hx
    obtain ⟨p, hp, h⟩ := bind_eq_ok_iff.mp h
    obtain ⟨⟨⟩, -, hread⟩ := bind_eq_ok_iff.mp h
    obtain ⟨hneat, hop⟩ := Formula.isNeat_of_read hp hread hx.1
    exact ⟨⟨x.toList, Formula.isIdentifier_of_isNeat hneat, hop⟩, rfl, hneat⟩

end Targets

/-! ### Answers -/

namespace Differentiator
variable {t ts : Tree} {s : List Char}

/-- How requests for the derivatives of a formula are answered, where `t` is the tree of the formula
and `ts` the simplified tree. -/
structure AnswersInOrder (t ts : Tree)
    (answer : Targets → Except Failure (List (String × String))) : Prop where
  /-- Each variable of the formula counts once, where it occurs first. -/
  unknowns : t.unknowns.Nodup ∧
    t.unknowns.Pairwise fun x y => t.names.idxOf x < t.names.idxOf y
  /-- Where nothing is named, the variables of the formula are meant, or the default one if it has
  none: there is one answer for each of them. -/
  unnamed {targets : Targets} : targets = .all ∨ targets = .listed [] →
    answer targets = answer (.each ((Targets.unnamed t.unknowns).map (·.toList))) ∧
    ∀ pairs, answer targets = .ok pairs ↔
      List.Forall₂ (fun x pair => pair.1 = x ∧ ts.derivativeText x = .ok pair.2)
        (Targets.unnamed t.unknowns) pairs
  single (name : List Char) (pair : String × String) : answer (.each [name]) = .ok [pair] ↔
    Targets.checkName (Formula.normalize name) = .ok ⟨⟩ ∧
      pair.1 = String.ofList (Formula.normalize name) ∧ ts.derivativeText pair.1 = .ok pair.2
  /-- A list of names is answered exactly if each name alone is, and by these answers in order. -/
  each (names : List (List Char)) (pairs : List (String × String)) :
    answer (.each names) = .ok pairs ↔
      List.Forall₂ (fun name pair => answer (.each [name]) = .ok [pair]) names pairs
  listed {text : List Char} : text ≠ [] →
    answer (.listed text) = answer (.each (Targets.namesIn text))
  /-- No answer is returned to a list without names, and to a text of blanks. -/
  nothing (targets : Targets) : answer targets = .ok [] ↔ targets = .each [] ∨
    ∃ text, text ≠ [] ∧ (∀ c ∈ text, Text.isBlank c = true) ∧ targets = .listed text

/-- Whatever was differentiated before, requests for the derivatives of a formula that can be read
and simplified are answered name by name, in order. -/
theorem answersInOrder (hread : Formula.readFormula s = .ok t) (hts : t.simplifyFully = .ok ts)
    (d : Differentiator) :
    AnswersInOrder t ts fun targets => ((derivatives targets s).run d).1 := by
  have hanswer : ∀ targets, ((derivatives targets s).run d).1 =
      ts.answers (targets.resolve t.unknowns) := by
    intro targets
    obtain ⟨d', hrun, -⟩ := run_derivatives hread targets d
    rw [hrun, hts]
    rfl
  have hsingle : ∀ name pair, ts.answers [name] = .ok [pair] ↔ Targets.checkName name = .ok ⟨⟩ ∧
      pair.1 = String.ofList name ∧ ts.derivativeText (String.ofList name) = .ok pair.2 := by
    intro name pair
    rw [Tree.answers_eq_ok_iff, List.forall₂_cons, and_iff_left List.Forall₂.nil]
  simp only [hanswer]
  refine ⟨⟨nodup_eraseDups _, pairwise_eraseDups_filter _ _⟩, ?_, ?_, ?_, ?_, ?_⟩
  · intro targets h
    rw [Targets.resolve_unnamed h]
    constructor
    · rw [Targets.resolve, List.map_map]
      congr 1
      exact List.map_congr_left fun x hx => (Targets.of_mem_unnamed hread hx).1.symm
    · intro pairs
      rw [Tree.answers_eq_ok_iff, List.forall₂_map_left_iff, List.forall₂_and_left,
        and_iff_right fun x hx => (Targets.of_mem_unnamed hread hx).2]
      simp only [String.ofList_toList]
  · intro name pair
    rw [Targets.resolve, List.map_singleton, hsingle]
    refine and_congr_right fun _ => and_congr_right fun hname => ?_
    rw [hname]
  · intro names pairs
    rw [Targets.resolve, Tree.answers_eq_ok_iff, List.forall₂_map_left_iff]
    simp only [Targets.resolve, List.map_singleton, hsingle]
  · intro text h
    rw [Targets.resolve_listed h]
  · intro targets
    rw [Tree.answers_eq_ok_iff, List.forall₂_nil_right_iff, Targets.resolve_eq_nil_iff]

theorem answersInOrder_cos :
    let s : List Char := ['c', 'o', 's', '(', 'x', '-', 'y', ')']
    let t : Tree := .unary .cos (.binary .minus (.var "x") (.var "y"))
    Formula.readFormula s = .ok t ∧ t.simplifyFully = .ok t ∧
      AnswersInOrder t t fun targets => ((derivatives targets s).run new).1 := by
  intro s t
  have hread : Formula.readFormula s = .ok t := by decide +kernel
  have hsimplified : t.simplifyFully = .ok t := by decide +kernel
  exact ⟨hread, hsimplified, answersInOrder hread hsimplified new⟩

/-- A text of blanks asks for nothing, the empty text for all variables. -/
example :
    let answer := fun text => ((derivatives (.listed text) ['y', '*', 'x']).run new).1
    answer [' '] = .ok [] ∧ answer [] = .ok [("y", "x"), ("x", "y")] := by
  decide +kernel

end Differentiator

end Reckon
