import Reckon.Proofs.FlatChains
import Reckon.Proofs.OperandPieces
import Reckon.Proofs.Termination
import Reckon.Simplify.Pass

/-!
# Levels to spare

The reader counts the levels of a text, an evaluation and a simplifying pass those of the tree.
Where a function stands at the head of a chain, as in `abs1*2`, its operand is one level below the
text, but two below the tree. Yet a tree has at most two levels more than its text
(`Formula.nesting_le_of_readLevels`): a chain in the operand of a function stands in brackets, which
are a level of the text and none of the tree. So what is read with two levels to spare is not too
deep to be evaluated and simplified (`Formula.evaluate_of_spare_levels`).
-/

namespace Reckon

namespace Tree
variable {t : Tree}

/-- How many levels a chain has that begins with the tree. -/
def firstNesting (t : Tree) : Nat :=
  if t.isBinary then t.nesting else t.nesting + 1

theorem nesting_le_firstNesting (t : Tree) : t.nesting ≤ t.firstNesting := by
  unfold firstNesting
  split
  · exact Nat.le_refl _
  · exact Nat.le_succ _

theorem firstNesting_le (t : Tree) : t.firstNesting ≤ t.nesting + 1 := by
  unfold firstNesting
  split
  · exact Nat.le_succ _
  · exact Nat.le_refl _

theorem nesting_pos (t : Tree) : 0 < t.nesting := by
  cases t with
  | number | var => exact Nat.one_pos
  | unary => exact Nat.succ_pos _
  | binary op l r => exact (Nat.succ_pos _).trans_le (Nat.le_max_right _ _)

theorem nesting_of_not_isCompound (h : t.isCompound = false) : t.nesting = 1 := by
  cases t with
  | number | var => rfl
  | unary | binary => cases h

end Tree

/-! ### Reading -/

namespace Formula

section
variable {below : List Char → Except Failure Tree} {P : List Char → Prop} {m : Nat}
  {whole : List Char} {t : Tree}

/-- A chain that goes on has one level more than its operands. -/
theorem nesting_of_readChain_some (hP : IsInherited P)
    (hbelow : ∀ u a, P u → below u = .ok a → a.nesting ≤ m) {first : Tree}
    (hfirst : first.firstNesting ≤ m + 1) {s : List Char} (hs : P s)
    (h : readChain below whole (some first) s = .ok t) : t.nesting ≤ m + 1 := by
  by_cases hnil : s = []
  · subst hnil
    rw [readChain_some_nil] at h
    cases h
    exact (Tree.nesting_le_firstNesting _).trans hfirst
  obtain ⟨op, hm⟩ := exists_of_readChain_some hnil h
  have hlt := length_argument_drop_lt hm (some (.binary op))
  obtain ⟨hoperand, hrest⟩ := hP.argument (some (.binary op)) (hP.symbol hs hm)
  rw [readChain_binary hm] at h
  simp only at h
  split at h
  · cases h
  obtain ⟨right, hright, h⟩ := bind_eq_ok_iff.mp h
  have hle := hbelow _ right hoperand hright
  refine nesting_of_readChain_some hP hbelow ?_ hrest h
  exact Nat.max_le.mpr ⟨hfirst, Nat.succ_le_succ hle⟩
termination_by s.length

/-- What is read below a chain whose text has the property `P` has at most `m` levels. -/
structure IsShallow (below : List Char → Except Failure Tree) (P : List Char → Prop) (m : Nat) :
    Prop where
  operand : ∀ u a, P u → below u = .ok a → a.nesting ≤ m
  uncut : ∀ u a, IsUncut u → below u = .ok a → a.nesting ≤ m
  /-- The operand of a function that a chain begins with has less. -/
  head : ∀ s (f : Unary) (b : Binary) a, P s → Operator.longestMatch s = some (.unary f) →
    Operator.longestMatch (argument (some (.unary f)) (s.drop f.symbol.length)).2 =
      some (.binary b) →
    below (argument (some (.unary f)) (s.drop f.symbol.length)).1 = .ok a → a.nesting + 1 ≤ m

/-- At the head of a chain that goes on, a function is two levels above its operand. -/
theorem nesting_of_readChain_unary (hP : IsInherited P) (hbelow : IsShallow below P m)
    {s : List Char} (hs : P s) {f : Unary} (hm : Operator.longestMatch s = some (.unary f))
    (h : readChain below whole none s = .ok t) : t.nesting ≤ m + 1 := by
  have huncut := isUncut_argument_unary f (s.drop f.symbol.length)
  have hrest := (hP.argument (some (.unary f)) (hP.symbol hs hm)).2
  rw [readChain_unary hm] at h
  simp only [Operator.symbol_unary] at h hrest
  split at h
  · cases h
  split at h
  · cases h
  obtain ⟨a, ha, h⟩ := bind_eq_ok_iff.mp h
  by_cases hend : (argument (some (.unary f)) (s.drop f.symbol.length)).2 = []
  · rw [hend, readChain_some_nil] at h
    cases h
    exact Nat.succ_le_succ (hbelow.uncut _ a huncut ha)
  obtain ⟨b, hb⟩ := exists_of_readChain_some hend h
  have hless := hbelow.head s f b a hs hm hb ha
  refine nesting_of_readChain_some hP hbelow.operand ?_ hrest h
  exact Nat.succ_le_succ hless

theorem nesting_of_readChain (hP : IsInherited P) (hbelow : IsShallow below P m) {s : List Char}
    (hs : P s) (h : readChain below whole none s = .ok t) : t.nesting ≤ m + 1 := by
  by_cases hnil : s = []
  · subst hnil
    rw [readChain] at h
    cases h
  rcases hm : Operator.longestMatch s with _ | f | op
  case none =>
    obtain ⟨-, op, hop⟩ := exists_of_readChain_operand hnil hm h
    obtain ⟨hoperand, hrest⟩ := hP.argument (some (.binary op))
      (hP.symbol (hP.argument none hs).2 hop)
    rw [readChain_operand hnil hm hop] at h
    simp only at h
    split at h
    · cases h
    obtain ⟨left, hleft, h⟩ := bind_eq_ok_iff.mp h
    obtain ⟨right, hright, h⟩ := bind_eq_ok_iff.mp h
    have hl := hbelow.uncut _ left (isUncut_argument_none s) hleft
    have hr := hbelow.operand _ right hoperand hright
    refine nesting_of_readChain_some hP hbelow.operand ?_ hrest h
    exact Nat.max_le.mpr ⟨left.firstNesting_le.trans (Nat.succ_le_succ hl), Nat.succ_le_succ hr⟩
  case some.unary => exact nesting_of_readChain_unary hP hbelow hs hm h
  case some.binary =>
    obtain ⟨hoperand, hrest⟩ := hP.argument (some (.binary op)) (hP.symbol hs hm)
    rw [readChain_binary hm] at h
    simp only at h
    split at h
    · cases h
    obtain ⟨right, hright, h⟩ := bind_eq_ok_iff.mp h
    have hr := hbelow.operand _ right hoperand hright
    refine nesting_of_readChain_some hP hbelow.operand ?_ hrest h
    -- the sign stands behind a zero
    exact Nat.max_le.mpr ⟨Nat.succ_le_succ (right.nesting_pos.trans_le hr), Nat.succ_le_succ hr⟩

end

/-- The tree of a text has at most two levels more than the text, and at most one if the text lies
in the operand of a function. -/
theorem nesting_le_of_readLevels {levels : Nat} {s : List Char} {t : Tree}
    (h : readLevels levels s = .ok t) :
    t.nesting ≤ levels + 2 ∧ (IsUncut s → t.nesting ≤ levels + 1) := by
  induction levels generalizing s t with
  | zero => cases h
  | succ levels ih =>
    rw [readLevels] at h
    split at h
    · cases h
    split at h
    · -- brackets are a level of the text only
      have := (ih h).1
      omega
    split at h
    · cases h
      exact ⟨by simp [Tree.nesting], fun _ => by simp [Tree.nesting]⟩
    split at h
    · cases h
      exact ⟨by simp [Tree.nesting], fun _ => by simp [Tree.nesting]⟩
    have hall : IsShallow (readLevels levels) (fun _ => True) (levels + 2) :=
      { operand := fun u a _ ha => (ih ha).1
        uncut := fun u a hu ha => ((ih ha).2 hu).trans (Nat.le_succ _)
        head := fun s f b a _ _ _ ha => Nat.succ_le_succ ((ih ha).2 (isUncut_argument_unary f _)) }
    have huncut : IsShallow (readLevels levels) IsUncut (levels + 1) :=
      { operand := fun u a hu ha => (ih ha).2 hu
        uncut := fun u a hu ha => (ih ha).2 hu
        head := fun s f b a hs hm hb ha => by
          obtain ⟨b', hsuffix⟩ := exists_suffix_of_isUncut hs hm hb
          rw [Tree.nesting_of_not_isCompound (isCompound_of_readLevels_tail hsuffix ha)]
          cases levels with
          | zero => cases ha
          | succ levels => omega }
    exact ⟨nesting_of_readChain isInherited_true hall trivial h,
      fun hs => nesting_of_readChain isInherited_isUncut huncut hs h⟩

/-- The bound is reached where an operand seems to go on behind `log`, although it ends in `og`. -/
example :
    let s : List Char := ['!', 'c', 'e', 'i', 'l', 'o', 'g', '+', '1', '*', '2']
    (readLevels 3 s).map Tree.nesting = .ok 5 := by
  decide +kernel

end Formula

/-! ### Simplifying -/

namespace Simplify

/-- A chain is rebuilt operand by operand. -/
theorem failsOnly_run_foldChain {below : Tree → Plan Tree} {levels : Nat}
    (hbelow : ∀ t : Tree, t.nesting ≤ levels → FailsOnly Failure.IsNumeric ((below t).run .working))
    {t : Tree} (ht : t.firstNesting ≤ levels + 1) :
    FailsOnly Failure.IsNumeric ((t.foldChain below Plan.combine).run .working) := by
  induction t with
  | number | var | unary => exact hbelow _ (Nat.le_of_succ_le_succ ht)
  | binary op l r ihl _ =>
    obtain ⟨hl, hr⟩ := Nat.max_le.mp ht
    rw [Tree.foldChain_binary]
    refine failsOnly_run_bind (ihl hl) fun left => ?_
    exact failsOnly_run_bind (hbelow r (Nat.le_of_succ_le_succ hr)) fun right =>
      failsOnly_run_combine

/-- A pass of as many levels as the tree has does not run out of them. -/
theorem failsOnly_run_passLevels {levels : Nat} {t : Tree} (ht : t.nesting ≤ levels) :
    FailsOnly Failure.IsNumeric ((passLevels levels t).run .working) := by
  induction levels generalizing t with
  | zero => exact absurd t.nesting_pos (Nat.not_lt.mpr ht)
  | succ levels ih =>
    cases t with
    | number | var => exact failsOnly_ok _
    | unary op a =>
      exact failsOnly_run_bind (ih (Nat.le_of_succ_le_succ ht)) fun s => failsOnly_apply op s
    | binary op l r => exact failsOnly_run_foldChain (fun _ => ih) ht

end Simplify

/-- What is read with two levels to spare is evaluated and simplified without being too deep. -/
theorem Formula.evaluate_of_spare_levels [Binary64.Library] (unit : AngleUnit) {bindings : Bindings}
    (hb : bindings.IsNumeric) {s prepared : List Char} {t : Tree}
    (hprepare : prepare s = .ok prepared) (hvalid : validate prepared = .ok ())
    (hread : readLevels (maxDepth - 1) prepared = .ok t) :
    readFormula s = .ok t ∧ evaluate unit bindings s ≠ .error .tooDeep ∧
      FailsOnly Failure.IsNumeric t.simplify := by
  have hformula : readFormula s = .ok t := by
    rw [readFormula, hprepare]
    change validate prepared >>= (fun _ => read prepared) = _
    rw [hvalid]
    exact readLevels_of_le (by decide) hread
  have hnesting : t.nesting ≤ maxDepth + 1 := (nesting_le_of_readLevels hread).1
  have hnumeric : bindings.normalized.IsNumeric :=
    Bindings.forall_mem_normalized (P := fun bound => bound.isNumeric = true) hb
  refine ⟨hformula, fun hdeep => ?_, Simplify.failsOnly_run_passLevels hnesting⟩
  rw [evaluate_of_read hformula] at hdeep
  exact Tree.failsOnly_valueLevels unit hnumeric hnesting _ hdeep rfl

/-- The operand of a function at the head of a product. -/
theorem Formula.evaluate_of_spare_levels_head :
    let s : List Char := ['a', 'b', 's', 'x', '*', '2']
    let t : Tree := .binary .times (.unary .abs (.var "x")) (.number (.ofNat 2))
    let bindings : Bindings := [("x", .text ['5'])]
    bindings.IsNumeric ∧ prepare s = .ok s ∧ validate s = .ok () ∧
      readLevels (maxDepth - 1) s = .ok t ∧ readFormula s = .ok t ∧
      evaluate .rad bindings s ≠ .error .tooDeep ∧ FailsOnly Failure.IsNumeric t.simplify := by
  intro s t bindings
  have hb : bindings.IsNumeric := by decide +kernel
  have hprepare : prepare s = .ok s := by decide +kernel
  have hvalid : validate s = .ok () := by decide +kernel
  have hread : readLevels (maxDepth - 1) s = .ok t := by decide +kernel
  exact ⟨hb, hprepare, hvalid, hread, evaluate_of_spare_levels .rad hb hprepare hvalid hread⟩

end Reckon
