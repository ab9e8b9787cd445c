import Reckon.Proofs.Forms
import Reckon.Proofs.Unlimited

/-!
# Units of angles

A unit of angles is a way of writing. `Tree.inRadians` writes the conversions out: one in front of
every angle that a function takes, one around every angle that a function yields. Where names are
bound to numbers, a tree has the same value in its unit as the tree written out has in radians, or
it fails in the same way; without functions of angles the unit makes no difference
(`Tree.value_inRadians`).
-/

namespace Reckon

/-- One kind of failure: the same failure, or the same fault of arithmetic met by two operators. -/
inductive Failure.SameKind : Failure → Failure → Prop
  | refl (f : Failure) : SameKind f f
  | tooLarge (op op' : String) : SameKind (.undefined (.tooLarge op)) (.undefined (.tooLarge op'))
  | arithmetic (op op' : String) (cause : Signal) :
    SameKind (.undefined (.arithmetic op cause)) (.undefined (.arithmetic op' cause))

/-- The same value, or failures of one kind. -/
abbrev SameOutcome := Agree Failure.SameKind (@Eq Decimal)

theorem SameOutcome.refl (r : Except Failure Decimal) : SameOutcome r r :=
  Agree.refl .refl (fun _ => rfl) r

/-- A fault of arithmetic stays one whichever operator meets it. -/
theorem sameOutcome_within (r : Except Failure Decimal) (op op' : String) :
    SameOutcome (r.mapError (·.within op)) (r.mapError (·.within op')) := by
  cases r with
  | ok a => exact .ok rfl
  | error f =>
    refine .error ?_
    cases f with
    | signal cause =>
      cases cause with
      | overflow => exact .tooLarge op op'
      | invalidOperation | divisionImpossible | divisionUndefined | divisionByZero =>
        exact .arithmetic op op' _
    | _ => exact .refl _

theorem SameOutcome.bind {r r' : Except Failure Decimal} {f g : Decimal → Except Failure Decimal}
    (h : SameOutcome r r') (hfg : ∀ a, SameOutcome (f a) (g a)) :
    SameOutcome (r >>= f) (r' >>= g) := by
  refine Agree.bind h ?_
  rintro a _ rfl
  exact hfg a

/-! ### Functions of angles -/

theorem mapError_bind {ε ε' α β : Type} (g : ε → ε') (x : Except ε α) (f : α → Except ε β) :
    (x >>= f).mapError g = x.mapError g >>= fun a => (f a).mapError g := by
  cases x <;> rfl

namespace Unary
variable {op : Unary}

/-- No function both takes an angle and yields one. -/
theorem isInverseTrigonometric_of_forward (h : op.isForwardTrigonometric = true) :
    op.isInverseTrigonometric = false := by
  cases op <;> first | rfl | cases h

theorem isForwardTrigonometric_of_inverse (h : op.isInverseTrigonometric = true) :
    op.isForwardTrigonometric = false := by
  rw [Bool.eq_false_iff]
  intro hforward
  rw [isInverseTrigonometric_of_forward hforward] at h
  cases h

variable [Binary64.Library]

theorem apply_rad (op : Unary) :
    op.apply .rad = fun a => (op.numeric a).mapError (·.within op.name) := by
  funext a
  rw [apply]
  simp only [Numeric.toRadians, Numeric.fromRadians, pure, Except.pure, ite_self]
  change Except.mapError _ (op.numeric a >>= pure) = _
  rw [bind_pure]

/-- The angle that a function takes is converted first. -/
theorem apply_of_forward (unit : AngleUnit) (h : op.isForwardTrigonometric = true) (a : Decimal) :
    op.apply unit a =
      (Numeric.toRadians unit a).mapError (·.within op.name) >>= op.apply .rad := by
  have hinverse := isInverseTrigonometric_of_forward h
  rw [apply_rad, apply]
  simp only [h, hinverse, ↓reduceIte, Bool.false_eq_true, bind_pure, mapError_bind]

/-- The angle that a function yields is converted. -/
theorem apply_of_inverse (unit : AngleUnit) (h : op.isInverseTrigonometric = true) (a : Decimal) :
    op.apply unit a =
      op.apply .rad a >>= fun r => (Numeric.fromRadians unit r).mapError (·.within op.name) := by
  have hforward := isForwardTrigonometric_of_inverse h
  rw [apply_rad, apply]
  simp only [h, hforward, ↓reduceIte, Bool.false_eq_true, pure_bind, mapError_bind]

theorem apply_of_not_trigonometric (unit : AngleUnit) (h : op.isTrigonometric = false) :
    op.apply unit = op.apply .rad := by
  obtain ⟨hforward, hinverse⟩ := Bool.or_eq_false_iff.mp h
  funext a
  rw [apply_rad, apply]
  simp only [hforward, hinverse, ↓reduceIte, Bool.false_eq_true, pure_bind, bind_pure]

end Unary

/-! ### Conversions written out -/

namespace AngleUnit

/-- An angle in the unit, converted to radians. -/
def toRadians : AngleUnit → Tree → Tree
  | rad, t => t
  | deg, t => .unary .degToRad t
  | grad, t => .unary .gradToRad t

/-- An angle in radians, converted to the unit. -/
def fromRadians : AngleUnit → Tree → Tree
  | rad, t => t
  | deg, t => .unary .radToDeg t
  | grad, t => .unary .radToGrad t

end AngleUnit

/-- The tree for angles in radians that stands for a tree with angles in the unit. -/
def Tree.inRadians (unit : AngleUnit) : Tree → Tree
  | number a => number a
  | var x => var x
  | unary op a =>
    if op.isForwardTrigonometric then unary op (unit.toRadians (a.inRadians unit))
    else if op.isInverseTrigonometric then unit.fromRadians (unary op (a.inRadians unit))
    else unary op (a.inRadians unit)
  | binary op l r => binary op (l.inRadians unit) (r.inRadians unit)

/-- Some operator of the tree takes an angle or yields one. -/
def Tree.hasAngles : Tree → Bool
  | number _ | var _ => false
  | unary op a => op.isTrigonometric || a.hasAngles
  | binary _ l r => l.hasAngles || r.hasAngles

/-- A number, given as one or as a text. -/
def Bound.isNumeric (bound : Bound) : Bool :=
  match bound.content with
  | .ok (.inr s) => Formula.isLiteral (Text.trim s)
  | _ => true

/-- Every name is bound to a number. -/
def Bindings.IsNumeric (b : Bindings) : Prop :=
  ∀ p ∈ b, p.2.isNumeric = true

instance (b : Bindings) : Decidable b.IsNumeric :=
  inferInstanceAs (Decidable (∀ p ∈ b, p.2.isNumeric = true))

theorem Bound.tree_of_isNumeric {bound : Bound} (h : bound.isNumeric = true) :
    (∃ f, bound.tree = .error f) ∨ ∃ a, bound.tree = .ok (.number a) := by
  rw [isNumeric] at h
  rw [tree]
  generalize bound.content = r at h
  rcases r with f | a | s
  · exact .inl ⟨f, rfl⟩
  · exact .inr ⟨a, rfl⟩
  · have hs : Formula.isLiteral (Text.trim s) = true := h
    simp only [hs, ↓reduceIte]
    cases Decimal.ofText? (Text.trim s) with
    | none => exact .inl ⟨_, rfl⟩
    | some a => exact .inr ⟨a, rfl⟩

namespace Bindings.IsNumeric
variable {b : Bindings} {x : String}

theorem lookup? (h : b.IsNumeric) {bound : Bound} (hx : b.lookup? x = some bound) :
    bound.isNumeric = true :=
  of_lookup?_eq_some (P := fun bound => bound.isNumeric = true) h hx

/-- No text is followed. -/
theorem resolve_congr (h : b.IsNumeric) (resolving : List String)
    (follow follow' : List Char → Except Failure Decimal) (x : String) :
    Tree.resolve b resolving follow x = Tree.resolve b resolving follow' x := by
  unfold Tree.resolve
  cases namedConstant? x with
  | some a => rfl
  | none =>
    cases hlookup : b.lookup? x with
    | none => rfl
    | some bound =>
      have hnumeric := h.lookup? hlookup
      rw [Bound.isNumeric] at hnumeric
      simp only
      generalize bound.content = r at hnumeric
      rcases r with f | a | s
      · rfl
      · rfl
      · have hs : Formula.isLiteral (Text.trim s) = true := hnumeric
        simp only [hs, ↓reduceIte]

end Bindings.IsNumeric

namespace Tree

section
variable [Binary64.Library] {unit unit' : AngleUnit} {b : Bindings} {resolving : List String}
  {t : Tree}

/-- Without functions of angles a value is the same in every unit. -/
theorem valueLevels_of_not_hasAngles (hb : b.IsNumeric) (levels : Nat) (ht : t.hasAngles = false) :
    valueLevels Formula.readFormula unit b levels resolving t =
      valueLevels Formula.readFormula unit' b levels resolving t := by
  induction levels generalizing t with
  | zero => rfl
  | succ levels ih =>
    cases t with
    | number a => rfl
    | var x =>
      rw [valueLevels_var, valueLevels_var]
      exact hb.resolve_congr resolving _ _ x
    | unary op a =>
      obtain ⟨hop, ha⟩ := Bool.or_eq_false_iff.mp ht
      rw [valueLevels_unary, valueLevels_unary, ih ha, Unary.apply_of_not_trigonometric unit hop,
        Unary.apply_of_not_trigonometric unit' hop]
    | binary op l r =>
      rw [valueLevels_binary, valueLevels_binary]
      generalize binary op l r = t at ht
      induction t with
      | number | var | unary => exact ih ht
      | binary op l r ihl _ =>
        obtain ⟨hl, hr⟩ := Bool.or_eq_false_iff.mp ht
        rw [chainValue_binary, chainValue_binary, ihl hl, ih hr]

theorem unlimitedValue_unary (op : Unary) (a : Tree) :
    unlimitedValue unit b resolving (unary op a) =
      unlimitedValue unit b resolving a >>= op.apply unit := by
  rw [unlimitedValue]

theorem unlimitedValue_binary (op : Binary) (l r : Tree) :
    unlimitedValue unit b resolving (binary op l r) =
      unlimitedValue unit b resolving l >>= fun left =>
        unlimitedValue unit b resolving r >>= fun right => op.apply left right := by
  rw [unlimitedValue]

/-- What is bound to a number has its value in every unit. -/
theorem unlimitedValue_var_of_isNumeric (hb : b.IsNumeric) (x : String) :
    unlimitedValue unit b resolving (var x) = unlimitedValue unit' b resolving (var x) := by
  cases h : b.standsFor? x with
  | none =>
    rw [unlimitedValue_of_standsFor?_eq_none h, unlimitedValue_of_standsFor?_eq_none h]
  | some r =>
    by_cases hx : x ∈ resolving
    · rw [unlimitedValue_of_mem h hx, unlimitedValue_of_mem h hx]
    · obtain ⟨-, bound, hlookup, rfl⟩ := Bindings.standsFor?_eq_some_iff.mp h
      rw [unlimitedValue_of_not_mem h hx, unlimitedValue_of_not_mem h hx]
      rcases Bound.tree_of_isNumeric (hb.lookup? hlookup) with ⟨f, hf⟩ | ⟨a, ha⟩
      · rw [hf]
        rfl
      · rw [ha]
        exact (unlimitedValue_number a).trans (unlimitedValue_number a).symm

/-- A conversion fails within a function as it does by itself. -/
theorem sameOutcome_convert {r : Except Failure Decimal} (conversion op : Unary)
    (h : SameOutcome r (unlimitedValue .rad b resolving t)) :
    SameOutcome (r >>= fun a => (conversion.numeric a).mapError (·.within op.name))
      (unlimitedValue .rad b resolving (unary conversion t)) := by
  rw [unlimitedValue_unary, Unary.apply_rad]
  exact h.bind fun a => sameOutcome_within ..

theorem sameOutcome_toRadians {r : Except Failure Decimal}
    (h : SameOutcome r (unlimitedValue .rad b resolving t)) (op : Unary) :
    SameOutcome (r >>= fun a => (Numeric.toRadians unit a).mapError (·.within op.name))
      (unlimitedValue .rad b resolving (unit.toRadians t)) := by
  cases unit with
  | rad => exact (bind_pure r).symm ▸ h
  | deg => exact sameOutcome_convert .degToRad op h
  | grad => exact sameOutcome_convert .gradToRad op h

theorem sameOutcome_fromRadians {r : Except Failure Decimal}
    (h : SameOutcome r (unlimitedValue .rad b resolving t)) (op : Unary) :
    SameOutcome (r >>= fun a => (Numeric.fromRadians unit a).mapError (·.within op.name))
      (unlimitedValue .rad b resolving (unit.fromRadians t)) := by
  cases unit with
  | rad => exact (bind_pure r).symm ▸ h
  | deg => exact sameOutcome_convert .radToDeg op h
  | grad => exact sameOutcome_convert .radToGrad op h

/-- A tree and the tree with its conversions written out, neither of them too deep. -/
theorem sameOutcome_inRadians (unit : AngleUnit) (hb : b.IsNumeric) (t : Tree) :
    SameOutcome (unlimitedValue unit b resolving t)
      (unlimitedValue .rad b resolving (t.inRadians unit)) := by
  induction t with
  | number a =>
    rw [inRadians, unlimitedValue_number, unlimitedValue_number]
    exact .refl _
  | var x =>
    rw [inRadians, unlimitedValue_var_of_isNumeric hb x]
    exact .refl _
  | unary op a ih =>
    rw [unlimitedValue_unary, inRadians]
    split
    · rename_i hforward
      rw [funext (Unary.apply_of_forward unit hforward), ← bind_assoc, unlimitedValue_unary]
      exact (sameOutcome_toRadians ih op).bind fun a => .refl _
    split
    · rename_i hinverse
      rw [funext (Unary.apply_of_inverse unit hinverse), ← bind_assoc]
      refine sameOutcome_fromRadians ?_ op
      rw [unlimitedValue_unary]
      exact ih.bind fun a => .refl _
    · rename_i hforward hinverse
      have hplain : op.isTrigonometric = false := by
        rw [Unary.isTrigonometric, Bool.eq_false_iff.mpr hforward, Bool.eq_false_iff.mpr hinverse]
        rfl
      rw [Unary.apply_of_not_trigonometric unit hplain, unlimitedValue_unary]
      exact ih.bind fun a => .refl _
  | binary op l r ihl ihr =>
    rw [inRadians, unlimitedValue_binary, unlimitedValue_binary]
    exact ihl.bind fun left => ihr.bind fun right => .refl _

/-- Where names are bound to numbers, a tree has the value in its unit that it has in radians with
its conversions written out, or both fail in the same way, unless one of them is too deep. Without
functions of angles a tree has one value, or one failure, in all units. -/
theorem value_inRadians (unit : AngleUnit) (b : Bindings) (hb : b.IsNumeric) (t : Tree) :
    let value := t.value Formula.readFormula unit b
    let written := (t.inRadians unit).value Formula.readFormula .rad b
    (value ≠ .error .tooDeep → written ≠ .error .tooDeep → SameOutcome value written) ∧
      (t.hasAngles = false → ∀ unit', t.value Formula.readFormula unit' b = value) := by
  intro value written
  constructor
  · intro hvalue hwritten
    have h : value = t.unlimitedValue unit b [] :=
      (stopsOrIs_valueLevels _ t).resolve_left hvalue
    have h' : written = (t.inRadians unit).unlimitedValue .rad b [] :=
      (stopsOrIs_valueLevels _ _).resolve_left hwritten
    rw [h, h']
    exact sameOutcome_inRadians unit hb t
  · intro ht unit'
    unfold value Tree.value
    exact valueLevels_of_not_hasAngles hb _ ht

end

/-- An angle and the inverse of a function of angles, in degrees. -/
theorem value_inRadians_degrees :
    let b : Bindings := [("x", .text [' ', '3', '0']), ("y", .number .half)]
    let t : Tree := .binary .plus (.unary .sin (.var "x")) (.unary .acos (.var "y"))
    let written : Tree := .binary .plus (.unary .sin (.unary .degToRad (.var "x")))
      (.unary .radToDeg (.unary .acos (.var "y")))
    let value := t.value Formula.readFormula .deg b
    b.IsNumeric ∧ t.inRadians .deg = written ∧ value ≠ .error .tooDeep ∧
      SameOutcome value (written.value Formula.readFormula .rad b) := by
  intro b t written value
  have hb : b.IsNumeric := by decide +kernel
  have hvalue : value ≠ .error .tooDeep := by decide +kernel
  have hwritten : written.value Formula.readFormula .rad b ≠ .error .tooDeep := by decide +kernel
  exact ⟨hb, rfl, hvalue, (value_inRadians .deg b hb t).1 hvalue hwritten⟩

end Tree

end Reckon
