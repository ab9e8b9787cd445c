import Reckon.Proofs.Cycles

/-!
# Bindings as substitution

To evaluate a tree with bindings is to evaluate, without any, the tree in which every bound name is
replaced by the number or the tree that it is bound to (`Substituted`). Where no circle is reached
there is exactly one such tree, and it has the same value or fails in the same way
(`run_evaluate_substituted`).
-/

namespace Reckon

/-! ### Blanks at the ends -/

namespace Text

theorem squeeze_dropWhile_isBlank (s : List Char) : squeeze (s.dropWhile isBlank) = squeeze s := by
  induction s with
  | nil => rfl
  | cons c s ih =>
    rw [List.dropWhile_cons]
    split
    · rename_i hc
      rw [ih, squeeze, squeeze, List.filter_cons_of_neg (by simp [hc])]
    · rfl

theorem squeeze_trim (s : List Char) : squeeze (trim s) = squeeze s := by
  have hreverse : ∀ l : List Char, squeeze l.reverse = (squeeze l).reverse :=
    fun l => List.filter_reverse ..
  rw [trim, hreverse, squeeze_dropWhile_isBlank, hreverse, squeeze_dropWhile_isBlank,
    List.reverse_reverse]

theorem length_trim_le (s : List Char) : (trim s).length ≤ s.length := by
  rw [trim, List.length_reverse]
  calc ((s.dropWhile isBlank).reverse.dropWhile isBlank).length
      ≤ (s.dropWhile isBlank).reverse.length := (List.dropWhile_sublist _).length_le
    _ = (s.dropWhile isBlank).length := List.length_reverse
    _ ≤ s.length := (List.dropWhile_sublist _).length_le

end Text

/-- A text that has a tree has it without the blanks at its ends as well. -/
theorem Formula.readFormula_trim {s : List Char} {t : Tree} (h : readFormula s = .ok t) :
    readFormula (Text.trim s) = .ok t := by
  obtain ⟨key, hprepare, hread⟩ := bind_eq_ok_iff.mp h
  obtain ⟨hlength, hne, hkey⟩ := prepare_eq_ok_iff.mp hprepare
  have hnormal : normalize (Text.trim s) = normalize s := by
    rw [normalize, normalize, Text.squeeze_trim]
  have htrim : prepare (Text.trim s) = .ok key := by
    rw [prepare_eq_ok_iff, hnormal]
    exact ⟨(Text.length_trim_le s).trans hlength, hne, hkey⟩
  rw [readFormula, htrim]
  exact hread

/-! ### Substitution -/

/-- The tree that a bound value means: a number, also one that is given as a text, or the tree of a
formula. -/
inductive Bound.Denotes : Bound → Tree → Prop
  | number {bound : Bound} {a : Decimal} (h : bound.content = .ok (.inl a)) :
    Denotes bound (.number a)
  | literal {bound : Bound} {s : List Char} {a : Decimal} (h : bound.content = .ok (.inr s))
    (hs : Formula.isLiteral (Text.trim s) = true) (ha : Decimal.ofText? (Text.trim s) = some a) :
    Denotes bound (.number a)
  | formula {bound : Bound} {s : List Char} {t : Tree} (h : bound.content = .ok (.inr s))
    (hs : Formula.isLiteral (Text.trim s) = false) (ht : Formula.readFormula s = .ok t) :
    Denotes bound t

theorem Bound.Denotes.tree_eq {bound : Bound} {t : Tree} (h : bound.Denotes t) :
    bound.tree = .ok t := by
  cases h with
  | number h => rw [Bound.tree, h]
  | literal h hs ha => simp only [Bound.tree, h, hs, ha, ↓reduceIte]
  | formula h hs ht =>
    simp only [Bound.tree, h, hs, Bool.false_eq_true, ↓reduceIte]
    exact Formula.readFormula_trim ht

namespace Bindings

/-- The second tree is the first one with what it is bound to in place of every variable that is
bound and no constant, again and again. -/
inductive Substituted (b : Bindings) : Tree → Tree → Prop
  | number (a : Decimal) : Substituted b (.number a) (.number a)
  | free {x : String} (h : (namedConstant? x).isSome ∨ b.lookup? x = none) :
    Substituted b (.var x) (.var x)
  | bound {x : String} {bound : Bound} {t t' : Tree} (hx : namedConstant? x = none)
    (hbound : b.lookup? x = some bound) (ht : bound.Denotes t) (hsub : Substituted b t t') :
    Substituted b (.var x) t'
  | unary {op : Unary} {a a' : Tree} (ha : Substituted b a a') :
    Substituted b (.unary op a) (.unary op a')
  | binary {op : Binary} {l l' r r' : Tree} (hl : Substituted b l l') (hr : Substituted b r r') :
    Substituted b (.binary op l r) (.binary op l' r')

/-- The tree reaches no name that is defined in terms of itself. -/
def IsAcyclic (b : Bindings) (t : Tree) : Prop :=
  ∀ x, b.Reaches t x → ¬b.IsCyclic x

/-- What the names that the tree reaches are bound to means something. -/
def IsMeaningful (b : Bindings) (t : Tree) : Prop :=
  ∀ x bound, b.Reaches t x → b.lookup? x = some bound → namedConstant? x = none →
    ∃ u, bound.Denotes u

section
variable {b : Bindings} {resolving : List String} {t u : Tree}

theorem standsFor?_of_denotes {x : String} {bound : Bound} (hx : namedConstant? x = none)
    (hbound : b.lookup? x = some bound) (ht : bound.Denotes t) :
    b.standsFor? x = some (.ok t) :=
  standsFor?_eq_some_iff.mpr ⟨hx, bound, hbound, ht.tree_eq⟩

theorem Substituted.unique {t' : Tree} (h : b.Substituted t t') (hu : b.Substituted t u) :
    t' = u := by
  induction h generalizing u with
  | number a => cases hu; rfl
  | free h =>
    cases hu with
    | free => rfl
    | bound hx hbound => simp [hx, hbound] at h
  | bound hx hbound ht _ ih =>
    cases hu with
    | free h => simp [hx, hbound] at h
    | bound hx' hbound' hu hsub =>
      have heq := (standsFor?_of_denotes hx hbound ht).symm.trans
        (standsFor?_of_denotes hx' hbound' hu)
      obtain rfl := Except.ok.inj (Option.some.inj heq)
      exact ih hsub
  | unary _ ih =>
    cases hu with
    | unary hu => rw [ih hu]
  | binary _ _ ihl ihr =>
    cases hu with
    | binary hl hr => rw [ihl hl, ihr hr]

theorem IsAcyclic.mono (h : b.IsAcyclic u) (hsub : ∀ x, b.Reaches t x → b.Reaches u x) :
    b.IsAcyclic t :=
  fun x hx => h x (hsub x hx)

theorem IsMeaningful.mono (h : b.IsMeaningful u) (hsub : ∀ x, b.Reaches t x → b.Reaches u x) :
    b.IsMeaningful t :=
  fun x bound hx => h x bound (hsub x hx)

/-- What a variable is bound to is put in its place when it is followed, and no name is met again
while it is being resolved. -/
theorem exists_substituted [Binary64.Library] (unit : AngleUnit)
    (hresolving : b.LeadTo resolving t) (hacyclic : b.IsAcyclic t) (hmeaning : b.IsMeaningful t) :
    ∃ t', b.Substituted t t' ∧
      t.unlimitedValue unit b resolving = t'.unlimitedValue unit [] [] := by
  fun_induction Tree.unlimitedValue unit b resolving t with
  | case1 resolving a => exact ⟨_, .number a, (Tree.unlimitedValue_number a).symm⟩
  | case2 resolving x h =>
    refine ⟨_, .free (standsFor?_eq_none_iff.mp h), ?_⟩
    rw [Tree.unlimitedValue_of_standsFor?_eq_none (standsFor?_nil x)]
  | case3 resolving x r h hx =>
    exact absurd (hresolving.isCyclic hx) (hacyclic x reaches_self)
  | case4 resolving x hx f _ h =>
    obtain ⟨hconstant, bound, hbound, hf⟩ := standsFor?_eq_some_iff.mp h
    obtain ⟨u, hu⟩ := hmeaning x bound reaches_self hbound hconstant
    rw [hu.tree_eq] at hf
    cases hf
  | case5 resolving x hx t _ h ih =>
    obtain ⟨hconstant, bound, hbound, ht⟩ := standsFor?_eq_some_iff.mp h
    obtain ⟨u, hu⟩ := hmeaning x bound reaches_self hbound hconstant
    -- the tree that is followed is the one that is put in
    obtain rfl := Except.ok.inj (hu.tree_eq.symm.trans ht)
    have hsub : ∀ y, b.Reaches u y → b.Reaches (.var x) y :=
      fun y hy => reaches_var.mpr (.inr ⟨u, h, hy⟩)
    obtain ⟨t', ht', hvalue⟩ :=
      ih (hresolving.follow h) (hacyclic.mono hsub) (hmeaning.mono hsub)
    exact ⟨t', .bound hconstant hbound hu ht', hvalue⟩
  | case6 resolving op a ih =>
    obtain ⟨a', ha', hvalue⟩ := ih hresolving hacyclic hmeaning
    refine ⟨_, .unary ha', ?_⟩
    rw [hvalue, Tree.unlimitedValue]
  | case7 resolving op l r ihl ihr =>
    have hleft : ∀ x, b.Reaches l x → b.Reaches (.binary op l r) x :=
      fun x hx => reaches_binary.mpr (.inl hx)
    have hright : ∀ x, b.Reaches r x → b.Reaches (.binary op l r) x :=
      fun x hx => reaches_binary.mpr (.inr hx)
    obtain ⟨l', hl', hl⟩ := ihl hresolving.left (hacyclic.mono hleft) (hmeaning.mono hleft)
    obtain ⟨r', hr', hr⟩ := ihr hresolving.right (hacyclic.mono hright) (hmeaning.mono hright)
    refine ⟨_, .binary hl' hr', ?_⟩
    rw [hl, hr, Tree.unlimitedValue]

end

end Bindings

namespace Evaluator

/-- A formula has the value that its tree has without bindings once everything bound is put in its
place, or it fails as that tree does, if neither is too deep. -/
theorem run_evaluate_substituted [Binary64.Library] (unit : AngleUnit) (requests : List Request)
    (bindings : Bindings) (s : List Char) (t : Tree) (ht : Formula.readFormula s = .ok t)
    (hacyclic : bindings.normalized.IsAcyclic t)
    (hmeaning : bindings.normalized.IsMeaningful t) :
    let e := after requests (new unit)
    let outcome := ((evaluate bindings s).run e).1
    ∃ t', bindings.normalized.Substituted t t' ∧
      (∀ u, bindings.normalized.Substituted t u → u = t') ∧
      let value := t'.value Formula.readFormula e.unit []
      (outcome ≠ .error .tooDeep → value ≠ .error .tooDeep → outcome = value) := by
  intro e outcome
  obtain ⟨t', ht', hvalue⟩ :=
    Bindings.exists_substituted e.unit (.nil t) hacyclic hmeaning
  refine ⟨t', ht', fun u hu => hu.unique ht', ?_⟩
  intro value hlimited hlimited'
  have houtcome : outcome = t.unlimitedValue e.unit bindings.normalized [] := by
    have hrun : outcome = Formula.evaluate e.unit bindings s :=
      fst_run_evaluate_after unit requests bindings s
    rw [hrun] at hlimited ⊢
    exact (Formula.stopsOrIs_evaluate e.unit bindings ht).resolve_left hlimited
  have hwhole : value = t'.unlimitedValue e.unit [] [] :=
    (Tree.stopsOrIs_valueLevels _ t').resolve_left hlimited'
  rw [houtcome, hvalue, hwhole]

/-- Twice the sum that `x` is bound to, where `k` is bound to itself. -/
theorem run_evaluate_substituted_square :
    let bindings : Bindings :=
      [("X", .text [' ', 'y', '+', '1']), ("y", .number .two), ("k", .text ['k'])]
    let t : Tree := .binary .times (.var "x") (.var "x")
    let sum : Tree := .binary .plus (.number .two) (.number .one)
    let outcome := ((evaluate bindings ['x', '*', 'X']).run (after [] (new .rad))).1
    Formula.readFormula ['x', '*', 'X'] = .ok t ∧
      bindings.normalized.IsAcyclic t ∧ bindings.normalized.IsMeaningful t ∧
      outcome = .ok (.ofNat 9) ∧
      outcome = (Tree.binary .times sum sum).value Formula.readFormula .rad [] := by
  intro bindings t sum outcome
  have ht : Formula.readFormula ['x', '*', 'X'] = .ok t := by decide +kernel
  have hnine : outcome = .ok (.ofNat 9) := by decide +kernel
  have hlimited : outcome ≠ .error .tooDeep := by
    rw [hnine]
    exact nofun
  have hlimited' : (Tree.binary .times sum sum).value Formula.readFormula .rad [] ≠
      .error .tooDeep := by decide +kernel
  have hlookupX : bindings.normalized.lookup? "x" = some (.text [' ', 'y', '+', '1']) := rfl
  have hlookupY : bindings.normalized.lookup? "y" = some (.number .two) := rfl
  have hdenotes : (Bound.text [' ', 'y', '+', '1']).Denotes
      (.binary .plus (.var "y") (.number .one)) :=
    .formula rfl (by decide +kernel) (by decide +kernel)
  have hx := Bindings.standsFor?_of_denotes rfl hlookupX hdenotes
  have hy := Bindings.standsFor?_of_denotes rfl hlookupY (.number rfl)
  have hreach : ∀ z, bindings.normalized.Reaches t z → z = "x" ∨ z = "y" := by
    intro z hz
    simpa [t, Bindings.reaches_binary, Bindings.reaches_var, hx, hy,
      Bindings.not_reaches_number] using hz
  have hacyclic : bindings.normalized.IsAcyclic t := by
    intro z hz
    rcases hreach z hz with rfl | rfl
    · simp [Bindings.isCyclic_iff, Bindings.reaches_binary, Bindings.reaches_var, hx, hy,
        Bindings.not_reaches_number]
    · simp [Bindings.isCyclic_iff, hy, Bindings.not_reaches_number]
  have hmeaning : bindings.normalized.IsMeaningful t := by
    intro z bound hz hbound _
    rcases hreach z hz with rfl | rfl
    · obtain rfl := Option.some.inj (hlookupX.symm.trans hbound)
      exact ⟨_, hdenotes⟩
    · obtain rfl := Option.some.inj (hlookupY.symm.trans hbound)
      exact ⟨_, .number rfl⟩
  have hx' : bindings.normalized.Substituted (.var "x") sum :=
    .bound rfl hlookupX hdenotes
      (.binary (.bound rfl hlookupY (.number rfl) (.number .two)) (.number .one))
  obtain ⟨t', -, hunique, hvalue⟩ :=
    run_evaluate_substituted .rad [] bindings ['x', '*', 'X'] t ht hacyclic hmeaning
  obtain rfl := hunique _ (.binary hx' hx')
  exact ⟨ht, hacyclic, hmeaning, hnine, hvalue hlimited hlimited'⟩

end Evaluator

end Reckon
