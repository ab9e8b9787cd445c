import Reckon.Proofs.ScientificNotation
import Reckon.Proofs.TargetNames

/-!
# Names that formulas can use

Whatever is a name may be bound to a value and may be asked for as a variable. But products are put
behind digits, so `x2y` in a formula is `x2*y`: a name is read as itself exactly if it is small
letters and then digits (`read_prepare_name_iff`), and no formula has another one in it
(`isNeat_of_readFormula`). One line end behind the name does not matter. A name that is read has the
value of the number that it is bound to, unless it is the name of a constant (`usable_names`).
-/

namespace Reckon

open Text

namespace Formula

/-! ### Names and line ends -/

section
variable {s n : List Char}

theorem exists_of_hasOperator (h : hasOperator s = true) : ∃ op : Operator, op.symbol <:+: s := by
  induction s with
  | nil => cases h
  | cons c s ih =>
    rw [hasOperator, Bool.or_eq_true, Option.isSome_iff_exists] at h
    rcases h with ⟨op, hm⟩ | h
    · exact ⟨op, (Operator.symbol_prefix_of_longestMatch hm).isInfix⟩
    · obtain ⟨op, hop⟩ := ih h
      exact ⟨op, hop.trans (List.suffix_cons c s).isInfix⟩

/-- The name without the line end behind it. -/
def Name.ofIsName (h : isName n = true) : Name where
  chars := withoutLineEnd n
  isIdentifier := isIdentifier_of_isName h
  hasOperator := by
    by_contra hsome
    obtain ⟨op, hop⟩ := exists_of_hasOperator (by simpa using hsome)
    have hlead : withoutLineEnd n <+: n := by
      rcases eq_withoutLineEnd_or n with heq | heq
      · exact ⟨[], by rw [List.append_nil, ← heq]⟩
      · exact ⟨['\n'], heq.symm⟩
    rw [isName_of_contains (hop.trans hlead.isInfix)] at h
    cases h

theorem normalize_of_isNeat (h : IsNeat (withoutLineEnd n)) : normalize n = withoutLineEnd n := by
  have hsqueeze : squeeze n = squeeze (withoutLineEnd n) := by
    rcases eq_withoutLineEnd_or n with heq | heq
    · rw [← heq]
    · conv_lhs => rw [heq]
      rw [squeeze, squeeze, List.filter_append]
      exact List.append_nil _
  rw [normalize, hsqueeze, ← normalize, normalize_eq_self (isPlainChar_of_isNeat h)]

/-! ### Names that are read -/

theorem readsWithin_of_isNeat (h : isName n = true) (hx : IsNeat (withoutLineEnd n)) :
    prepared n = withoutLineEnd n ∧
      ReadsWithin (maxDepth + 1) n (.var (String.ofList (withoutLineEnd n))) := by
  have hself : prepared (withoutLineEnd n) = withoutLineEnd n :=
    Phrase.prepared_text (.name (.ofIsName h)) hx
  have hprepared : prepared n = withoutLineEnd n := by
    rw [prepared, normalize_eq_self (isPlainChar_of_isNeat hx)] at hself
    rw [prepared, normalize_of_isNeat hx, hself]
  rw [ReadsWithin, hprepared]
  exact ⟨rfl, Phrase.validate_text (.name (.ofIsName h)) hx,
    Phrase.readLevels_name (.ofIsName h) maxDepth⟩

/-- The names in a formula are small letters and then digits. -/
theorem isNeat_of_readFormula {t : Tree} (h : readFormula s = .ok t) {y : String}
    (hy : y ∈ t.names) : IsNeat y.toList := by
  obtain ⟨p, hp, h⟩ := bind_eq_ok_iff.mp h
  obtain ⟨-, -, hread⟩ := bind_eq_ok_iff.mp h
  exact (isNeat_of_read hp hread hy).1

theorem read_prepare_name_iff (h : isName n = true) :
    (prepare n >>= read) = .ok (.var (String.ofList (withoutLineEnd n))) ↔
      n.length ≤ maxLength ∧ IsNeat (withoutLineEnd n) := by
  constructor
  · intro hread
    obtain ⟨p, hp, hread⟩ := bind_eq_ok_iff.mp hread
    have hneat := (isNeat_of_read hp hread (List.mem_singleton_self _)).1
    rw [String.toList_ofList] at hneat
    exact ⟨(prepare_eq_ok_iff.mp hp).1, hneat⟩
  · rintro ⟨hlength, hx⟩
    obtain ⟨p, hp, hread⟩ := bind_eq_ok_iff.mp
      (readFormula_eq_ok_iff.mpr ⟨hlength, (readsWithin_of_isNeat h hx).2⟩)
    obtain ⟨⟨⟩, -, hread⟩ := bind_eq_ok_iff.mp hread
    exact bind_eq_ok_iff.mpr ⟨p, hp, hread⟩

/-- A formula that is a name has the value of the number that the name is bound to. -/
theorem evaluate_name [Binary64.Library] (unit : AngleUnit) (h : isName n = true)
    (hlength : n.length ≤ maxLength) (hx : IsNeat (withoutLineEnd n))
    (hconstant : namedConstant? (String.ofList (withoutLineEnd n)) = none) {bound : Bound}
    {a : Decimal} (hbound : bound.tree = .ok (.number a)) :
    evaluate unit [(String.ofList n, bound)] n = .ok a := by
  have hread := readFormula_eq_ok_iff.mpr ⟨hlength, (readsWithin_of_isNeat h hx).2⟩
  have hnormal : Bindings.normalized [(String.ofList n, bound)] =
      [(String.ofList (withoutLineEnd n), bound)] := by
    simp [Bindings.normalized, Bindings.update, Bindings.set, normalize_of_isNeat hx]
  have hstands : Bindings.standsFor? [(String.ofList (withoutLineEnd n), bound)]
      (String.ofList (withoutLineEnd n)) = some (.ok (.number a)) :=
    Bindings.standsFor?_eq_some_iff.mpr ⟨hconstant, bound, by simp [Bindings.lookup?], hbound⟩
  rw [evaluate, evaluateWith, hread]
  change Tree.value readFormula unit _ (.var _) = _
  rw [hnormal, Tree.value, Tree.valueLevels_var]
  rcases Tree.resolve_of_not_mem hstands List.not_mem_nil with hresolve | ⟨b, hb, hresolve⟩
  · rw [hresolve]
    rfl
  · cases hb
    exact hresolve

end

end Formula

open Formula

/-- A name is read as itself exactly if it is small letters and then digits and not too long. Then
it has the value of the number that it is bound to, unless it is the name of a constant. A variable
that derivatives may be asked for is in no formula if it is not such a name; if it is, it is a
formula itself. -/
theorem usable_names [Binary64.Library] :
    (∀ n : List Char, isName n = true →
      let x := withoutLineEnd n
      ((prepare n >>= read) = .ok (.var (String.ofList x)) ↔ n.length ≤ maxLength ∧ IsNeat x) ∧
        (n.length ≤ maxLength → IsNeat x → namedConstant? (String.ofList x) = none →
          ∀ (unit : AngleUnit) (requests : List Evaluator.Request) (bound : Bound) (a : Decimal),
            bound.tree = .ok (.number a) →
            let e := Evaluator.after requests (.new unit)
            ((Evaluator.evaluate [(String.ofList n, bound)] n).run e).1 = .ok a)) ∧
      ∀ x : List Char, Targets.checkName x = .ok () →
        ((∃ s t, readFormula s = .ok t ∧ String.ofList x ∈ t.names) → IsNeat x) ∧
          (IsNeat x → x.length ≤ maxLength → readFormula x = .ok (.var (String.ofList x))) := by
  refine ⟨fun n h => ⟨read_prepare_name_iff h, ?_⟩, fun x hcheck => ⟨?_, ?_⟩⟩
  · intro hlength hx hconstant unit requests bound a hbound e
    have hrun : ((Evaluator.evaluate [(String.ofList n, bound)] n).run e).1 =
        evaluate e.unit [(String.ofList n, bound)] n :=
      Evaluator.fst_run_evaluate_after unit requests _ n
    rw [hrun, evaluate_name e.unit h hlength hx hconstant hbound]
  · rintro ⟨s, t, hread, hmem⟩
    have hneat := isNeat_of_readFormula hread hmem
    rwa [String.toList_ofList] at hneat
  · intro hx hlength
    have hline : '\n' ∉ x := by
      intro hmem
      have := isPlainChar_of_isNeat hx _ hmem
      revert this
      decide
    have h := Targets.isName_of_checkName hcheck
    have hself := withoutLineEnd_of_not_mem hline
    have hreads := readsWithin_of_isNeat h (by rwa [hself])
    rw [hself] at hreads
    exact readFormula_eq_ok_iff.mpr ⟨hlength, hreads.2⟩

theorem usable_names_letter_digit :
    (prepare ['x', '1', '\n'] >>= read) = .ok (.var "x1") ∧
      ((Evaluator.evaluate [("x1\n", .text ['5'])] ['x', '1', '\n']).run
        (Evaluator.after [] (.new .rad))).1 = .ok (.ofNat 5) ∧
      readFormula ['x', '1'] = .ok (.var "x1") := by
  have hx : IsNeat ['x', '1'] := ⟨['x'], ['1'], rfl, by decide, by decide, by decide⟩
  obtain ⟨hread, hevaluate⟩ := usable_names.1 ['x', '1', '\n'] (by decide)
  exact ⟨hread.mpr ⟨by decide, hx⟩,
    hevaluate (by decide) hx rfl .rad [] (.text ['5']) (.ofNat 5) (by decide +kernel),
    (usable_names.2 ['x', '1'] (by decide)).2 hx (by decide)⟩

/-- A letter behind a digit belongs to the next factor of a product. -/
theorem not_read_letter_behind_digit :
    isName ['x', '2', 'y'] = true ∧ lowercase ['x', '2', 'y'] = ['x', '2', 'y'] ∧
      (prepare ['x', '2', 'y'] >>= read) = .ok (.binary .times (.var "x2") (.var "y")) ∧
      ¬(prepare ['x', '2', 'y'] >>= read) = .ok (.var "x2y") := by
  decide +kernel

end Reckon
