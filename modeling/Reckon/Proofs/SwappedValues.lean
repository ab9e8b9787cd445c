import Reckon.Proofs.AlikeValues
import Reckon.Proofs.ReachedBindings
import Reckon.Proofs.Swapped

/-!
# Values of swapped trees

The value of a tree does not tell forms of a number apart, so another subtree whose value is the
same number changes the value in its form at most. This holds with a limit on levels as well if the
other subtree takes no more of them (`Tree.Swapped.stopsOrAgrees_valueLevels`).
-/

namespace Reckon

/-- The second computation agrees with the first one, unless that stops because something is too
deep. -/
def StopsOrAgrees (r r' : Except Failure Decimal) : Prop :=
  r = .error .tooDeep ∨ AgreeValue r r'

theorem StopsOrAgrees.bind {r r' : Except Failure Decimal} {f g : Decimal → Except Failure Decimal}
    (h : StopsOrAgrees r r') (hfg : ∀ a a', a.Alike a' → StopsOrAgrees (f a) (g a')) :
    StopsOrAgrees (r >>= f) (r' >>= g) := by
  rcases h with rfl | h
  · exact .inl rfl
  cases h with
  | ok h => exact hfg _ _ h
  | error h => exact .inr (.error h)

theorem StopsOrAgrees.refl (r : Except Failure Decimal) : StopsOrAgrees r r :=
  .inr (agreeValue_refl r)

theorem StopsOrIs.stopsOrAgrees {x y z : Except Failure Decimal} (h : StopsOrIs x y)
    (hz : AgreeValue y z) : StopsOrAgrees x z := by
  rcases h with h | rfl
  · exact .inl h
  · exact .inr hz

/-! ### Names that a tree reaches -/

/-- Every name that the tree reaches is bound to the same. -/
def Bindings.SameAt (b b' : Bindings) (t : Tree) : Prop :=
  ∀ x, b.Reaches t x → b'.lookup? x = b.lookup? x

namespace Bindings.SameAt
variable {b b' : Bindings} {t l r : Tree} {op : Binary}

theorem agreeAt (h : b.SameAt b' t) : b.AgreeAt b' t :=
  fun x hx _ => h x hx

theorem operand {op : Unary} (h : b.SameAt b' (.unary op t)) : b.SameAt b' t :=
  fun y hy => h y (reaches_unary.mpr hy)

theorem left (h : b.SameAt b' (.binary op l r)) : b.SameAt b' l :=
  fun y hy => h y (reaches_binary.mpr (.inl hy))

theorem right (h : b.SameAt b' (.binary op l r)) : b.SameAt b' r :=
  fun y hy => h y (reaches_binary.mpr (.inr hy))

end Bindings.SameAt

namespace Tree
variable {unit : AngleUnit} {b b' : Bindings} {resolving : List String} {t t' : Tree}

theorem Swapped.sameAt {a c : Tree} (h : Swapped a c t t') (hnames : b.SameAt b' t) :
    b.SameAt b' a := by
  induction h with
  | here => exact hnames
  | unary op _ ih => exact ih hnames.operand
  | left op r _ ih => exact ih hnames.left
  | right op l _ ih => exact ih hnames.right

section
variable {below below' : Tree → Except Failure Decimal}
  (hsame : ∀ t, b.SameAt b' t → below' t = below t)
include hsame

/-- A chain in which a subtree is swapped. The first operand of a chain takes no level of its own,
so there the subtree may be a chain and is met by `hchain`. -/
theorem Swapped.stopsOrAgrees_chainValue [Binary64.Library] {a c : Tree}
    (hbelow : ∀ t t', Swapped a c t t' → b.SameAt b' t → StopsOrAgrees (below t) (below' t'))
    (hchain : StopsOrAgrees (chainValue below a) (chainValue below' c)) (h : Swapped a c t t')
    (hnames : b.SameAt b' t) : StopsOrAgrees (chainValue below t) (chainValue below' t') := by
  induction h with
  | here => exact hchain
  | unary op h => exact hbelow _ _ (.unary op h) hnames
  | left op r _ ih =>
    rw [chainValue_binary, chainValue_binary, hsame r hnames.right]
    refine (ih hnames.left).bind fun _ _ hleft => (StopsOrAgrees.refl _).bind fun _ _ hright => ?_
    exact .inr (op.agree_apply hleft hright)
  | right op l h _ =>
    rw [chainValue_binary, chainValue_binary,
      chainValue_congr (fun _ _ _ h => ⟨h.left, h.right⟩) hsame hnames.left]
    refine (StopsOrAgrees.refl _).bind fun _ _ hleft => ?_
    exact (hbelow _ _ h hnames.right).bind fun _ _ hright => .inr (op.agree_apply hleft hright)

end

theorem Swapped.stopsOrAgrees_valueLevels [Binary64.Library] {a c : Tree}
    (hvalue : ∀ levels, StopsOrAgrees (valueLevels Formula.readFormula unit b levels resolving a)
      (valueLevels Formula.readFormula unit b' levels resolving c))
    (hchain : ∀ levels,
      StopsOrAgrees (chainValue (valueLevels Formula.readFormula unit b levels resolving) a)
        (chainValue (valueLevels Formula.readFormula unit b' levels resolving) c))
    (levels : Nat) (h : Swapped a c t t') (hnames : b.SameAt b' t) :
    StopsOrAgrees (valueLevels Formula.readFormula unit b levels resolving t)
      (valueLevels Formula.readFormula unit b' levels resolving t') := by
  induction levels generalizing t t' with
  | zero => exact .inl rfl
  | succ levels ih =>
    have hoperands : ∀ t t', Swapped a c t t' → b.SameAt b' t →
        StopsOrAgrees (valueLevels Formula.readFormula unit b levels resolving t)
          (valueLevels Formula.readFormula unit b' levels resolving t') := fun _ _ h ht => ih h ht
    have hwhole := h.stopsOrAgrees_chainValue
      (fun t ht => valueLevels_congr levels ht.agreeAt) hoperands (hchain levels) hnames
    cases h with
    | here => exact hvalue _
    | unary op h =>
      rw [valueLevels_unary, valueLevels_unary]
      exact (ih h hnames.operand).bind fun _ _ halike => .inr (op.agree_apply unit halike)
    | left op r h =>
      rw [valueLevels_binary, valueLevels_binary]
      exact hwhole
    | right op l h =>
      rw [valueLevels_binary, valueLevels_binary]
      exact hwhole

end Tree

end Reckon
