import Reckon.Proofs.FiniteValues
import Reckon.Proofs.Memory
import Reckon.Proofs.Numerals
import Reckon.Proofs.Shown
import Reckon.Proofs.Unlimited

/-!
# Foreseen failures

What is read consists of finite numbers (`yields_readFormula`), and operators keep to these; so
where everything bound is a finite number or a text, an evaluation yields a finite number
(`yieldsFinite_unlimitedValue`) or fails for a reason that a rule of the calculator foresees
(`Evaluator.run_evaluate_foreseen`).
-/

namespace Reckon

/-! ### Numbers that are read -/

namespace Formula

theorem isFinite_of_ofText? {s : List Char} {a : Decimal} (h : Decimal.ofText? s = some a)
    (hs : ∀ c ∈ s, Text.isDigit c = true ∨ c ∈ ['.', 'e', 'E', '+', '-', '\n']) :
    a.isFinite = true := by
  rw [ofText?_eq hs] at h
  obtain ⟨m, -, h⟩ := Option.bind_eq_some_iff.mp h
  split at h
  · cases h
    rfl
  · cases h

theorem isFinite_of_isLiteral {s : List Char} {a : Decimal} (hs : isLiteral s = true)
    (h : Decimal.ofText? s = some a) : a.isFinite = true :=
  isFinite_of_ofText? h fun _ => mem_isLiteral hs

theorem isFinite_of_number? {s : List Char} {a : Decimal} (h : number? s = some a) :
    a.isFinite = true := by
  have hs := isNumber_of_number? h
  rw [number?, if_pos hs] at h
  refine isFinite_of_ofText? h fun c hc => (mem_isNumber hs hc).imp_right fun hmark => ?_
  exact (by decide : ∀ d ∈ ['.', '+', '-', '\n'], d ∈ ['.', 'e', 'E', '+', '-', '\n']) c hmark

/-! ### Trees that are read -/

theorem yields_readChain {below : List Char → Except Failure Tree}
    (hbelow : ∀ s, Yields (fun t => t.hasFiniteNumbers = true) (below s)) (whole : List Char)
    (tree : Option Tree) (htree : ∀ t ∈ tree, t.hasFiniteNumbers = true) (s : List Char) :
    Yields (fun t => t.hasFiniteNumbers = true) (readChain below whole tree s) := by
  fun_induction readChain below whole tree s with
  | case1 tree => exact yields_ok.mpr (htree tree rfl)
  | case7 _ _ _ _ _ _ _ _ _ _ ih =>
    refine (hbelow _).bind fun left hleft => (hbelow _).bind fun right hright => ?_
    exact ih left right (by rintro _ ⟨⟩; simp [Tree.hasFiniteNumbers, hleft, hright])
  | case9 tree =>
    rename_i ih
    refine (hbelow _).bind fun right hright => ih right ?_
    rintro _ ⟨⟩
    rw [Tree.hasFiniteNumbers, hright, Bool.and_true]
    cases tree with
    | none => rfl
    | some t => exact htree t rfl
  | case12 _ _ _ _ _ _ _ _ ih =>
    refine (hbelow _).bind fun operand hoperand => ih operand ?_
    rintro _ ⟨⟩
    exact hoperand
  | _ => exact yields_error _

theorem yields_readLevels (levels : Nat) (s : List Char) :
    Yields (fun t => t.hasFiniteNumbers = true) (readLevels levels s) := by
  induction levels generalizing s with
  | zero => exact yields_error _
  | succ levels ih =>
    rw [readLevels]
    refine yields_guarded ?_
    split
    · exact ih _
    split
    · exact yields_ok.mpr rfl
    split
    · rename_i a ha
      exact yields_ok.mpr (isFinite_of_number? ha)
    · exact yields_readChain ih s none (fun _ h => by cases h) s

theorem yields_readFormula (s : List Char) :
    Yields (fun t => t.hasFiniteNumbers = true) (readFormula s) :=
  yields_bind fun _ => yields_bind fun _ => yields_readLevels _ _

end Formula

/-! ### Bound values -/

/-- A number is finite, an integer can be written out, and a text that is a number alone can be read
as one. -/
def Bound.isInRange (bound : Bound) : Bool :=
  match bound.content with
  | .error _ => false
  | .ok (.inl a) => a.isFinite
  | .ok (.inr s) => !Formula.isLiteral (Text.trim s) || (Decimal.ofText? (Text.trim s)).isSome

/-- An integer can be used if it is short enough to be written. -/
theorem Bound.isInRange_integer (n : Int) :
    (integer n).isInRange = true ↔ Decimal.digitCount n.natAbs ≤ maxIntegerDigits := by
  rw [isInRange, content]
  by_cases hlong : maxIntegerDigits < Decimal.digitCount n.natAbs
  · rw [if_pos hlong]
    exact iff_of_false Bool.false_ne_true (Nat.not_le.mpr hlong)
  rw [if_neg hlong]
  refine iff_of_true ?_ (Nat.not_lt.mp hlong)
  have hdigits : ∀ d ∈ Decimal.digits n.natAbs, Text.isAsciiDigit d = true :=
    fun d => Decimal.isAsciiDigit_of_mem_digits
  have hread := Decimal.readMagnitude?_digits (Decimal.digits_ne_nil n.natAbs) hdigits
  rw [Decimal.digitsValue_digits] at hread
  have hrange : Decimal.readable n.natAbs 0 = true := by
    have hmax : (maxIntegerDigits : Int) ≤ Decimal.maxReadExponent := by decide
    rw [Decimal.readable, Bool.and_eq_true, decide_eq_true_eq, decide_eq_true_eq]
    refine ⟨by decide, ?_⟩
    split <;> omega
  have hpositional := Decimal.IsPositional.of_digits (Decimal.digits_ne_nil n.natAbs) hdigits
  have htrim : Text.trim (Decimal.signText (n < 0) ++ Decimal.digits n.natAbs) =
      Decimal.signText (n < 0) ++ Decimal.digits n.natAbs := by
    refine Formula.trim_eq_self fun c hc => ?_
    rcases List.mem_append.mp hc with hc | hc
    · rw [Decimal.signText] at hc
      split at hc
      · obtain rfl := List.mem_singleton.mp hc
        decide
      · cases hc
    · exact Formula.isBlank_of_isDigit (Text.isDigit_of_isAsciiDigit (hdigits c hc))
  simp only
  rw [htrim, Decimal.ofText?_signText _ hpositional hread hrange, Option.isSome_some, Bool.or_true]

/-- A rule of the calculator foresees the failure and has a code for it. -/
def Failure.IsForeseen (f : Failure) : Prop :=
  f.code.isSome = true

theorem Failure.IsOfReading.isForeseen {f : Failure} (h : f.IsOfReading) : f.IsForeseen := by
  cases f with
  | malformed | tooDeep => rfl
  | _ => cases h

namespace Bindings
variable {b new : Bindings} {x : String} {bound : Bound} {p : String × Bound}

/-- Every bound value can be used. -/
def IsInRange (b : Bindings) : Prop :=
  ∀ p ∈ b, p.2.isInRange = true

instance (b : Bindings) : Decidable b.IsInRange :=
  inferInstanceAs (Decidable (∀ p ∈ b, p.2.isInRange = true))

theorem mem_set (h : p ∈ b.set x bound) : p = (x, bound) ∨ p ∈ b := by
  induction b with
  | nil => exact .inl (List.mem_singleton.mp h)
  | cons q b ih =>
    rw [set] at h
    split at h
    · rename_i hkey
      rcases List.mem_cons.mp h with rfl | h
      · exact .inl (by rw [hkey])
      · exact .inr (List.mem_cons_of_mem _ h)
    · rcases List.mem_cons.mp h with rfl | h
      · exact .inr (List.mem_cons_self ..)
      · exact (ih h).imp_right (List.mem_cons_of_mem _)

theorem mem_update (h : p ∈ b.update new) : p ∈ b ∨ p ∈ new := by
  induction new generalizing b with
  | nil => exact .inl h
  | cons q new ih =>
    rcases ih h with h | h
    · rcases mem_set h with rfl | h
      · exact .inr (List.mem_cons_self ..)
      · exact .inl h
    · exact .inr (List.mem_cons_of_mem _ h)

/-- Names in another spelling are bound to the same. -/
theorem forall_mem_normalized {P : Bound → Prop} (h : ∀ p ∈ b, P p.2) :
    ∀ p ∈ b.normalized, P p.2 := by
  intro p hp
  rcases mem_update hp with hp | hp
  · cases hp
  · obtain ⟨q, hq, rfl⟩ := List.mem_map.mp hp
    exact h q hq

theorem IsInRange.normalized (h : b.IsInRange) : b.normalized.IsInRange :=
  forall_mem_normalized (P := fun bound => bound.isInRange = true) h

/-- What a name stands for is made of finite numbers, or its text is no formula. -/
theorem IsInRange.standsFor? (h : b.IsInRange) {r : Except Failure Tree}
    (hr : b.standsFor? x = some r) :
    Yields (fun t => t.hasFiniteNumbers = true) r ∧ FailsOnly Failure.IsForeseen r := by
  obtain ⟨-, bound, hlookup, rfl⟩ := standsFor?_eq_some_iff.mp hr
  have hp := of_lookup?_eq_some (P := fun bound => bound.isInRange = true) h hlookup
  rw [Bound.isInRange] at hp
  rw [Bound.tree]
  generalize bound.content = r at hp
  rcases r with f | a | s
  · cases hp
  · exact ⟨yields_ok.mpr hp, failsOnly_ok _⟩
  · simp only at hp ⊢
    split
    · rename_i hliteral
      rw [hliteral, Bool.not_true, Bool.false_or] at hp
      obtain ⟨a, ha⟩ := Option.isSome_iff_exists.mp hp
      rw [ha]
      exact ⟨yields_ok.mpr (Formula.isFinite_of_isLiteral hliteral ha), failsOnly_ok _⟩
    · exact ⟨Formula.yields_readFormula _,
        fun f hf => (Formula.failsOnly_readFormula _ f hf).isForeseen⟩

end Bindings

/-! ### Evaluating -/

/-- An operator at finite numbers has a fault of its operands as its only failure. -/
theorem FailsOnly.within_isForeseen {α : Type} {r : Except Failure α}
    (h : FailsOnly Failure.IsArithmetic r) (op : String) :
    FailsOnly Failure.IsForeseen (r.mapError (·.within op)) := by
  cases r with
  | ok a => exact failsOnly_ok a
  | error f =>
    refine failsOnly_error.mpr ?_
    cases f with
    | undefined cause => rfl
    | signal cause => cases cause <;> rfl
    | _ => exact (failsOnly_error.mp h).elim

theorem Unary.failsOnly_isForeseen [Binary64.Library] (unit : AngleUnit) (op : Unary) {a : Decimal}
    (ha : a.isFinite = true) : FailsOnly Failure.IsForeseen (op.apply unit a) := by
  refine FailsOnly.within_isForeseen ?_ op.name
  have hangle : ∀ b, b.isFinite = true → FailsOnly Failure.IsArithmetic (op.numeric b) :=
    fun b => Numeric.failsOnly_unary_of_isFinite op
  have hradians := Numeric.yieldsFinite_toRadians unit ha
  simp only [failsOnly_ite, failsOnly_bind, failsOnly_pure, Numeric.failsOnly_toRadians,
    Numeric.failsOnly_fromRadians, implies_true, true_and, and_true]
  refine ⟨fun _ b hb => hangle b (hradians b hb), ?_⟩
  rintro _ b ⟨⟩
  exact hangle a ha

theorem Binary.failsOnly_isForeseen [Binary64.Library] (op : Binary) (a b : Decimal) :
    FailsOnly Failure.IsForeseen (op.apply a b) :=
  (Numeric.failsOnly_binary op a b).within_isForeseen op.name

namespace Tree
variable {unit : AngleUnit} {b : Bindings} {resolving : List String} {t : Tree}

theorem isFinite_of_namedConstant? {x : String} {a : Decimal} (h : namedConstant? x = some a) :
    a.isFinite = true := by
  unfold namedConstant? at h
  split at h <;> cases h <;> rfl

/-- A tree of finite numbers has a finite value, if it has one. -/
theorem yieldsFinite_unlimitedValue [Binary64.Library] (hb : b.IsInRange)
    (ht : t.hasFiniteNumbers = true) :
    YieldsFinite (t.unlimitedValue unit b resolving) := by
  fun_induction unlimitedValue unit b resolving t with
  | case1 resolving a => exact yields_ok.mpr ht
  | case2 resolving x h =>
    rw [freeValue]
    split
    · rename_i a ha
      exact yields_ok.mpr (isFinite_of_namedConstant? ha)
    · exact yields_error _
  | case3 | case4 => exact yields_error _
  | case5 resolving x hx t _ h ih => exact ih ((hb.standsFor? h).1 t rfl)
  | case6 resolving op a ih => exact (ih ht).bind fun _ ha => op.yieldsFinite_apply unit ha
  | case7 resolving op l r ihl ihr =>
    obtain ⟨hl, hr⟩ := Bool.and_eq_true_iff.mp ht
    exact (ihl hl).bind fun _ hl => (ihr hr).bind fun _ hr => op.yieldsFinite_apply hl hr

/-- A tree of finite numbers fails to have a value for foreseen reasons only. -/
theorem failsOnly_isForeseen [Binary64.Library] (hb : b.IsInRange)
    (ht : t.hasFiniteNumbers = true) :
    FailsOnly Failure.IsForeseen (t.unlimitedValue unit b resolving) := by
  fun_induction unlimitedValue unit b resolving t with
  | case1 resolving a => exact failsOnly_ok a
  | case2 resolving x h =>
    rw [freeValue]
    split
    · exact failsOnly_ok _
    · exact failsOnly_error.mpr rfl
  | case3 => exact failsOnly_error.mpr rfl
  | case4 resolving x hx f _ h => exact failsOnly_error.mpr (failsOnly_error.mp (hb.standsFor? h).2)
  | case5 resolving x hx t _ h ih => exact ih ((hb.standsFor? h).1 t rfl)
  | case6 resolving op a ih =>
    refine failsOnly_bind.mpr ⟨ih ht, fun value hvalue => ?_⟩
    exact op.failsOnly_isForeseen unit (yieldsFinite_unlimitedValue (t := a) hb ht value hvalue)
  | case7 resolving op l r ihl ihr =>
    obtain ⟨hl, hr⟩ := Bool.and_eq_true_iff.mp ht
    exact (ihl hl).bind fun _ => (ihr hr).bind fun _ => op.failsOnly_isForeseen _ _

end Tree

theorem Formula.failsOnly_evaluate [Binary64.Library] (unit : AngleUnit) {bindings : Bindings}
    (hbindings : bindings.IsInRange) (s : List Char) :
    FailsOnly Failure.IsForeseen (evaluate unit bindings s) := by
  cases hread : readFormula s with
  | error f =>
    rw [evaluate_of_read_error hread]
    exact failsOnly_error.mpr (failsOnly_readFormula s f hread).isForeseen
  | ok t =>
    rcases stopsOrIs_evaluate unit bindings hread with h | h
    · rw [h]
      exact failsOnly_error.mpr rfl
    · rw [h]
      exact Tree.failsOnly_isForeseen hbindings.normalized (yields_readFormula s t hread)

namespace Evaluator

/-- Whatever a formula is, and whatever was asked before: where everything bound can be used, the
evaluator answers with a number or with a failure that has a code. -/
theorem run_evaluate_foreseen [Binary64.Library] (unit : AngleUnit) (requests : List Request)
    (bindings : Bindings) (hbindings : bindings.IsInRange) (s : List Char) :
    let outcome := ((evaluate bindings s).run (after requests (new unit))).1
    (∃ a, outcome = .ok a) ∨ ∃ f, outcome = .error f ∧ f.IsForeseen := by
  intro outcome
  have houtcome : outcome = _ := fst_run_evaluate_after unit requests bindings s
  cases h : outcome with
  | ok a => exact .inl ⟨a, rfl⟩
  | error f =>
    exact .inr ⟨f, rfl, Formula.failsOnly_evaluate _ hbindings s f (houtcome.symm.trans h)⟩

/-- A power overflows inside a root, with an operand read from a bound text. -/
theorem run_evaluate_foreseen_overflow :
    let bindings : Bindings :=
      [("x", .text [' ', '1', 'e', '9', '9', '9', '9', '9', '9']), ("y", .number .two)]
    let s := ['s', 'q', 'r', 't', '(', 'x', '*', 'x', '^', 'y', ')']
    let outcome := ((evaluate bindings s).run (after [.selectUnit "deg"] (new .rad))).1
    bindings.IsInRange ∧ outcome = .error (.undefined (.tooLarge "^")) ∧
      ((∃ a, outcome = .ok a) ∨ ∃ f, outcome = .error f ∧ f.IsForeseen) := by
  intro bindings s outcome
  have hbindings : bindings.IsInRange := by decide +kernel
  exact ⟨hbindings, by decide +kernel,
    run_evaluate_foreseen .rad [.selectUnit "deg"] bindings hbindings s⟩

/-- An integer that is too long to be written has no code: it is the one thing that a name can be
bound to besides a number out of range for which no rule foresees the failure. -/
theorem fst_run_evaluate_long_integer [Binary64.Library] (unit : AngleUnit)
    (requests : List Request) {n : Int} (hn : maxIntegerDigits < Decimal.digitCount n.natAbs) :
    ((evaluate [("x", .integer n)] ['x']).run (after requests (new unit))).1 =
        .error .integerTooLong ∧ ¬Failure.integerTooLong.IsForeseen := by
  have hname : String.ofList (Formula.normalize "x".toList) = "x" := by decide +kernel
  have hbindings : Bindings.normalized [("x", .integer n)] = [("x", .integer n)] := by
    simp only [Bindings.normalized, List.map_singleton, hname]
    rfl
  have hlookup : Bindings.lookup? "x" [("x", .integer n)] = some (.integer n) := rfl
  have hconstant : namedConstant? "x" = none := by decide
  have hcontent : (Bound.integer n).content = .error .integerTooLong := if_pos hn
  have hread : Formula.readFormula ['x'] = .ok (.var "x") := by decide +kernel
  refine ⟨?_, Bool.false_ne_true⟩
  rw [fst_run_evaluate_after, Formula.evaluate_of_read hread, hbindings, Tree.value,
    Tree.valueLevels_var, Tree.resolve, hconstant, hlookup]
  simp only [hcontent, List.contains_nil, Bool.false_eq_true, if_false]
  rfl

end Evaluator

end Reckon
