import Reckon.Proofs.Cofactors
import Reckon.Proofs.Memory

/-!
# Numbers in E notation as operands

A number in E notation is one operand where it stands in brackets, and wherever brackets around it
would not change the tree. It is as well where it is the last factor of a product, as long as the
product can be made in another order (`Cofactor.Scales`). There a name that is bound to its text may
take its place (`Evaluator.run_evaluate_scientific`). Elsewhere the power of ten goes to a
neighbour: `1/1e3` is `1/1*10^3` (`Evaluator.run_evaluate_quotient_scientific`).
-/

namespace Reckon

namespace Formula

/-! ### Numbers and names behind a factor -/

section
variable (factor : Option Cofactor) (l : Scientific) (x : Name)

/-- A number or a name as it stands in brackets, alone or behind a factor. -/
def behind (w : List Char) : List Char :=
  factor.elim w (·.times w)

def numberTree : Tree :=
  factor.elim l.product (·.splitTree l)

def nameTree : Tree :=
  factor.elim (.var (String.ofList x.chars)) (·.wholeTree x)

variable {x}

/-- A name takes no more levels than a number in E notation. -/
theorem exists_readsWithin_behind (hx : IsNeat x.chars) {levels : Nat} {before after : List Char}
    {t : Tree} (ht : ReadsWithin levels (around before after (behind factor l.text)) t) :
    ∃ t', ReadsWithin levels (around before after (behind factor x.chars)) t' ∧
      Tree.Swapped (numberTree factor l) (nameTree factor x) t t' := by
  cases factor with
  | some f =>
    exact exists_readsWithin_around (f.nested_prepared_text l) (f.nested_prepared_name hx)
      (f.validate_prepared_name hx) (fun _ _ h => f.readLevels_text l hx h) ht
  | none =>
    -- the name is prepared already
    have hname : prepared x.chars = x.chars := Phrase.prepared_text (.name x) hx
    refine exists_readsWithin_around l.nested_prepared ?_ ?_ (fun levels t h => ⟨?_, ?_⟩) ht
    · rw [behind, Option.elim_none, hname]
      exact Phrase.nested_text (.name x)
    · rw [behind, Option.elim_none, hname]
      exact Phrase.validate_text (.name x) hx
    · exact (Except.ok.inj ((l.stopsOrIs_readLevels levels).of_ok h)).symm
    · cases levels with
      | zero => cases h
      | succ levels =>
        rw [behind, Option.elim_none, hname]
        exact Phrase.readLevels_name x levels

end

end Formula

/-! ### One more name -/

namespace Bindings
variable {b : Bindings} {bound : Bound} {x y : String}

theorem lookup?_set_self : (b.set x bound).lookup? x = some bound := by
  induction b with
  | nil => simp [set, lookup?]
  | cons p b ih =>
    rw [set]
    split
    · rename_i hp
      simp [lookup?, hp]
    · rename_i hp
      rw [lookup?, List.find?_cons_of_neg (by simp [hp])]
      exact ih

theorem lookup?_set_of_ne (h : y ≠ x) : (b.set x bound).lookup? y = b.lookup? y := by
  induction b with
  | nil => simp [set, lookup?, h.symm]
  | cons p b ih =>
    simp only [lookup?] at ih ⊢
    rw [set]
    split
    · rename_i hp
      have hne : p.1 ≠ y := by rw [hp]; exact h.symm
      rw [List.find?_cons_of_neg (by simp [hne]), List.find?_cons_of_neg (by simp [hne])]
    · by_cases hy : p.1 = y
      · rw [List.find?_cons_of_pos (by simp [hy]), List.find?_cons_of_pos (by simp [hy])]
      · rw [List.find?_cons_of_neg (by simp [hy]), List.find?_cons_of_neg (by simp [hy]), ih]

theorem normalized_append (name : String) :
    (b ++ [(name, bound)]).normalized =
      b.normalized.set (String.ofList (Formula.normalize name.toList)) bound := by
  simp [normalized, update, List.foldl_append]

/-- A name that the tree does not reach may be bound to anything. -/
theorem sameAt_set {t : Tree} (h : ¬b.Reaches t x) : b.SameAt (b.set x bound) t := by
  intro y hy
  refine lookup?_set_of_ne ?_
  rintro rfl
  exact h hy

end Bindings

/-! ### Values -/

namespace Formula
variable [Binary64.Library] {factor : Option Cofactor} {l : Scientific} {x : Name}
  {unit : AngleUnit} {b b' : Bindings}
  (hconstant : namedConstant? (String.ofList x.chars) = none)
  (hx : b'.lookup? (String.ofList x.chars) = some (.text l.text))
  (hnames : b.SameAt b' (numberTree factor l))
  (hscales : ∀ f ∈ factor, ∀ a, f.tree.unlimitedValue unit b [] = .ok a → f.Scales l a)
  (levels : Nat)
include hconstant hx hnames hscales

/-- The product is the number, if it has the levels that it takes. -/
theorem stopsOrAgrees_chainValue :
    StopsOrAgrees
      (Tree.chainValue (Tree.valueLevels readFormula unit b levels []) (numberTree factor l))
      (Tree.chainValue (Tree.valueLevels readFormula unit b' levels []) (nameTree factor x)) := by
  cases factor with
  | some f =>
    exact f.stopsOrAgrees_chainValue l levels hconstant hx (Bindings.SameAt.left hnames.left)
      (hscales f rfl)
  | none =>
    cases levels with
    | zero => exact .inl rfl
    | succ levels =>
      rw [nameTree, Option.elim_none, Tree.chainValue_var, l.valueLevels_var hconstant hx]
      exact (Tree.stopsOrIs_chainValue (Tree.stopsOrIs_valueLevels _) _).stopsOrAgrees
        (l.agree_unlimitedValue unit b [])

theorem stopsOrAgrees_valueLevels :
    StopsOrAgrees (Tree.valueLevels readFormula unit b levels [] (numberTree factor l))
      (Tree.valueLevels readFormula unit b' levels [] (nameTree factor x)) := by
  cases levels with
  | zero => exact .inl rfl
  | succ levels =>
    cases factor with
    | some f => exact stopsOrAgrees_chainValue hconstant hx hnames hscales levels
    | none =>
      rw [nameTree, Option.elim_none, l.valueLevels_var hconstant hx]
      exact (Tree.stopsOrIs_valueLevels _ _).stopsOrAgrees (l.agree_unlimitedValue unit b [])

end Formula

namespace Evaluator

open Formula

/-- Let the tree of a formula be the one that is read when at some place a number in E notation
stands in brackets, or the product of a factor in brackets with the number. Then a name that is
bound to the number is read there as well, in no more levels; and a formula with the tree that is
read then has the same number as its value as the first one, or fails as it does, unless the first
one is too deep, or the factor cannot be multiplied by the digits first. -/
theorem run_evaluate_scientific [Binary64.Library] (unit : AngleUnit) (requests : List Request)
    (bindings : Bindings) (factor : Option Cofactor) (l : Scientific) {x : Name}
    (hx : IsNeat x.chars) {levels : Nat} {front rest s : List Char} {t : Tree}
    (hs : readFormula s = .ok t)
    (hbrackets : ReadsWithin levels (around front rest (behind factor l.text)) t)
    (hconstant : namedConstant? (String.ofList x.chars) = none)
    (hfresh : ¬bindings.normalized.Reaches t (String.ofList x.chars)) :
    let e := after requests (new unit)
    let extended : Bindings := bindings ++ [(String.ofList x.chars, .text l.text)]
    let outcome := ((evaluate bindings s).run e).1
    ∃ t', ReadsWithin levels (around front rest (behind factor x.chars)) t' ∧
      ∀ s', readFormula s' = .ok t' → outcome ≠ .error .tooDeep →
        (∀ f ∈ factor, ∀ a,
          f.tree.unlimitedValue e.unit bindings.normalized [] = .ok a → f.Scales l a) →
        AgreeValue outcome ((evaluate extended s').run e).1 := by
  intro e extended outcome
  obtain ⟨t', ht', hswapped⟩ := exists_readsWithin_behind factor l hx hbrackets
  refine ⟨t', ht', fun s' hs' hlimited hscales => ?_⟩
  have hnormal : extended.normalized =
      bindings.normalized.set (String.ofList x.chars) (.text l.text) := by
    rw [Bindings.normalized_append, String.toList_ofList,
      normalize_eq_self (isPlainChar_of_isNeat hx)]
  have hlookup : extended.normalized.lookup? (String.ofList x.chars) = some (.text l.text) := by
    rw [hnormal, Bindings.lookup?_set_self]
  have hnames : bindings.normalized.SameAt extended.normalized t := by
    rw [hnormal]
    exact Bindings.sameAt_set hfresh
  have hplace := hswapped.sameAt hnames
  have hvalue : StopsOrAgrees outcome ((evaluate extended s').run e).1 := by
    have hrun : outcome = Formula.evaluate e.unit bindings s :=
      fst_run_evaluate_after unit requests bindings s
    have hrun' : ((evaluate extended s').run e).1 = Formula.evaluate e.unit extended s' :=
      fst_run_evaluate_after unit requests extended s'
    rw [hrun, hrun', evaluate_of_read hs, evaluate_of_read hs']
    exact Tree.Swapped.stopsOrAgrees_valueLevels
      (stopsOrAgrees_valueLevels hconstant hlookup hplace hscales)
      (stopsOrAgrees_chainValue hconstant hlookup hplace hscales) _ hswapped hnames
  exact hvalue.resolve_left hlimited

theorem run_evaluate_scientific_product :
    let bindings : Bindings := [("y", .number .two)]
    let extended : Bindings := bindings ++ [("x", .text ['1', 'E', '3'])]
    let sum (product : Tree) : Tree :=
      .binary .plus (.number (.ofNat 4)) (.binary .div product (.number (.ofNat 8)))
    let t := sum (.binary .times (.binary .times (.var "y") (.number .one))
      (.binary .power (.number (.ofNat 10)) (.number (.ofNat 3))))
    let t' := sum (.binary .times (.var "y") (.var "x"))
    let outcome := ((evaluate bindings ['4', '+', 'y', '*', '1', 'E', '3', '/', '8']).run
      (after [] (new .rad))).1
    readFormula ['4', '+', 'y', '*', '1', 'E', '3', '/', '8'] = .ok t ∧
      ReadsWithin (maxDepth + 1)
        (around ['4', '+'] ['/', '8'] ['(', 'y', ')', '*', '1', 'E', '3']) t ∧
      namedConstant? "x" = none ∧ ¬bindings.normalized.Reaches t "x" ∧
      readFormula ['4', '+', 'y', '*', 'x', '/', '8'] = .ok t' ∧ outcome ≠ .error .tooDeep ∧
      AgreeValue outcome
        ((evaluate extended ['4', '+', 'y', '*', 'x', '/', '8']).run (after [] (new .rad))).1 := by
  intro bindings extended sum t t' outcome
  let l : Scientific :=
    ⟨['1'], none, true, none, ['3'], by decide, by decide, by decide, by decide, by decide,
      by decide, by decide, by decide, by decide⟩
  let f : Cofactor := ⟨['y'], .var "y", by decide +kernel, none, by simp⟩
  let x : Name := ⟨['x'], by decide, by decide⟩
  have hx : IsNeat x.chars := ⟨['x'], [], by decide, by decide, by decide, by decide⟩
  have hs : readFormula ['4', '+', 'y', '*', '1', 'E', '3', '/', '8'] = .ok t := by decide +kernel
  have hbrackets : ReadsWithin (maxDepth + 1) (around ['4', '+'] ['/', '8'] (f.times l.text)) t :=
    (readFormula_eq_ok_iff.mp (by decide +kernel)).2
  have hy : bindings.normalized.standsFor? "y" = some (.ok (.number .two)) := rfl
  have hfresh : ¬bindings.normalized.Reaches t "x" := by
    simp [t, sum, Bindings.reaches_binary, Bindings.reaches_var, hy, Bindings.not_reaches_number]
  have hlimited : outcome ≠ .error .tooDeep := by decide +kernel
  obtain ⟨t₀, ht₀, hvalue⟩ :=
    run_evaluate_scientific .rad [] bindings (some f) l hx hs hbrackets rfl hfresh
  -- the product needs no brackets either
  have hname : ReadsWithin (maxDepth + 1) (around ['4', '+'] ['/', '8'] (f.times x.chars)) t' :=
    (readFormula_eq_ok_iff.mp (by decide +kernel)).2
  obtain rfl := Except.ok.inj (ht₀.2.symm.trans hname.2)
  have hs' : readFormula ['4', '+', 'y', '*', 'x', '/', '8'] = .ok t' := by decide +kernel
  refine ⟨hs, hbrackets, rfl, hfresh, hs', hlimited, hvalue _ hs' hlimited ?_⟩
  -- the factor is two
  rintro g ⟨⟩ a ha
  have hread : Tree.valueLevels readFormula .rad bindings.normalized 1 [] (.var "y") =
      .ok .two := by decide +kernel
  have htwo := (Tree.stopsOrIs_valueLevels 1 _).of_ok hread
  obtain rfl := Except.ok.inj (htwo.symm.trans ha)
  exact
    { exists_product := ⟨.finite false 2 0, by decide +kernel⟩
      mayShift := by
        rintro p q ⟨⟩ ⟨⟩
        have hdigits : l.coefficient = 1 ∧ l.places = 0 := by decide
        have hpower : Decimal.signed l.isNegative (Decimal.digitsValue l.exponent) = 3 := by decide
        rw [hdigits.1, hdigits.2, hpower]
        right
        constructor <;> exact Context.isNormal_of_one_le (by norm_num [Decimal.signed])
      coefficient_ne_zero := fun h => by cases h }

/-- Behind a factor the digits alone may make a product that is too large. -/
theorem run_evaluate_product_scientific :
    let large : Bindings := [("a", .number (.finite false 9 999999))]
    let outcome := ((evaluate large ['a', '*', '2', 'e', '-', '1']).run (new .rad)).1
    let outcome' := ((evaluate (large ++ [("x", .text ['2', 'e', '-', '1'])]) ['a', '*', 'x']).run
      (new .rad)).1
    outcome = .error (.undefined (.tooLarge "*")) ∧
      outcome' = .ok (.finite false 18 999998) := by
  decide +kernel

/-- Without brackets the power of ten goes to a neighbour that binds as tightly as the product. -/
theorem run_evaluate_quotient_scientific :
    let outcome := ((evaluate [] ['1', '/', '1', 'e', '3']).run (new .rad)).1
    let outcome' := ((evaluate [("x", .text ['1', 'e', '3'])] ['1', '/', 'x']).run (new .rad)).1
    outcome = .ok (.finite false 1000 0) ∧ outcome' = .ok (.finite false 1 (-3)) ∧
      ¬AgreeValue outcome outcome' := by
  intro outcome outcome'
  have h : outcome = .ok (.finite false 1000 0) := by decide +kernel
  have h' : outcome' = .ok (.finite false 1 (-3)) := by decide +kernel
  refine ⟨h, h', fun hagree => ?_⟩
  rw [h, h'] at hagree
  cases hagree with
  | ok halike =>
    obtain ⟨-, hvalue⟩ := halike
    norm_num at hvalue

end Evaluator

end Reckon
