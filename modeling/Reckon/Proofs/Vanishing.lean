import Reckon.Proofs.FixedPoint
import Reckon.Tree.Derivative
import Reckon.Tree.Value

/-!
# Derivatives that vanish

The rules for derivatives make zero of a tree that lacks the variable: a product with zero is zero,
and so are sums and differences of zeros and a quotient of zero (`isZero_rule`). One quotient is
left as it is, that of two numbers zero. It is asked for where a function of a constant has a
divisor in its rule that comes to zero, as in the derivative of `asin(1)`. Apart from that the
derivative is the number zero (`Tree.derivative_vanishes`).
-/

namespace Reckon

/-! ### Zeros -/

namespace Decimal
variable {ctx : Context} {a b : Decimal}

abbrev YieldsZero {ε : Type} (r : Except ε Decimal) : Prop :=
  Yields (fun a => a.isZero = true) r

theorem yieldsZero_round (negative : Bool) (e : Int) : YieldsZero (ctx.round negative 0 e) :=
  yields_ok.mpr rfl

theorem yieldsZero_plus (ha : a.isZero = true) : YieldsZero (plus ctx a) := by
  obtain ⟨negative, e, rfl⟩ := isZero_iff.mp ha
  exact yieldsZero_round _ e

theorem yieldsZero_add (ha : a.isZero = true) (hb : b.isZero = true) :
    YieldsZero (add ctx a b) := by
  obtain ⟨m, e, rfl⟩ := isZero_iff.mp ha
  obtain ⟨n, e', rfl⟩ := isZero_iff.mp hb
  have haligned : ∀ m e n e', YieldsZero (addAligned ctx m 0 e n 0 e') := by
    intro m e n e'
    have hsum : signed m 0 + signed n 0 = 0 := by cases m <;> cases n <;> rfl
    simp [addAligned, hsum, yieldsZero_round]
  rw [add]
  split
  · exact haligned n e' m e
  · exact haligned m e n e'

theorem isZero_flip (ha : a.isZero = true) : a.flip.isZero = true := by
  obtain ⟨m, e, rfl⟩ := isZero_iff.mp ha
  rfl

theorem yieldsZero_mul (ha : a.isFinite = true) (hb : b.isFinite = true)
    (h : a.isZero = true ∨ b.isZero = true) : YieldsZero (mul ctx a b) := by
  cases a with
  | infinite | nan => cases ha
  | finite m c e =>
    cases b with
    | infinite | nan => cases hb
    | finite n c' e' =>
      have hc : c * c' = 0 := by
        rcases h with h | h
        · obtain ⟨_, _, h⟩ := isZero_iff.mp h
          cases h
          exact Nat.zero_mul c'
        · obtain ⟨_, _, h⟩ := isZero_iff.mp h
          cases h
          exact Nat.mul_zero c
      rw [mul, hc]
      exact yieldsZero_round _ _

/-- Zero divided by another number is zero. -/
theorem exists_div_of_isZero (ha : a.isZero = true) (hb : b.isFinite = true)
    (hzero : ¬ b.isZero = true) : ∃ q, div ctx a b = .ok q ∧ q.isZero = true := by
  obtain ⟨m, e, rfl⟩ := isZero_iff.mp ha
  cases b with
  | infinite | nan => cases hb
  | finite n c e' =>
    have hc : c ≠ 0 := by
      rintro rfl
      exact hzero rfl
    exact ⟨_, by rw [div, if_neg hc, if_pos rfl, Context.round, if_pos rfl], rfl⟩

end Decimal

/-! ### What lacks a variable -/

/-- The function converts angles: its rule for derivatives keeps it even around zero. -/
def Unary.isConversion (op : Unary) : Bool :=
  op.chainRule matches .linear

/-- No name in the tree is `x` up to the size of letters, its numbers are finite, and it does not
convert angles. -/
def Tree.lacks (x : String) : Tree → Bool
  | number a => a.isFinite
  | var y => Text.lowercase y.toList ≠ Text.lowercase x.toList
  | unary op a => !op.isConversion && a.lacks x
  | binary _ a b => a.lacks x && b.lacks x

namespace Simplify

open Reckon.Tree (number var unary binary)
open ChainRule (squareMinusOne onePlusSquare circleRoot secantRoot secantTangent)

/-- The property of trees to lack a variable. -/
abbrev Lacks (x : String) (t : Tree) : Prop :=
  t.lacks x = true

variable {x : String} {op : Binary} {a b s t u : Tree}

theorem lacks_binary (ha : Lacks x a) (hb : Lacks x b) : Lacks x (binary op a b) :=
  Bool.and_eq_true_iff.mpr ⟨ha, hb⟩

theorem lacks_unary {op : Unary} (hop : op.isConversion = false) (ha : Lacks x a) :
    Lacks x (unary op a) := by
  rw [Lacks, Tree.lacks, hop]
  exact ha

instance : IsInherited (Lacks x) where
  number_iff := Iff.rfl
  operand h := (Bool.and_eq_true_iff.mp h).2
  operands h := Bool.and_eq_true_iff.mp h
  unary hop ha _ := lacks_unary (by cases ‹Unary› <;> first | rfl | cases hop) ha
  binary ha hb _ := lacks_binary ha hb

theorem exists_number (h : t.isZero = true) : ∃ c, t = number c ∧ c.isZero = true := by
  cases t with
  | number c => exact ⟨c, rfl, h⟩
  | var | unary | binary => cases h

theorem lacks_of_isZero (h : t.isZero = true) : Lacks x t := by
  obtain ⟨c, rfl, hc⟩ := exists_number h
  obtain ⟨_, _, rfl⟩ := Decimal.isZero_iff.mp hc
  rfl

/-! ### Operations that come to zero -/

/-- Whether an operation comes to zero because operands are zero. -/
def vanishes (op : Binary) (a b : Tree) : Bool :=
  match op with
  | .plus | .minus => a.isZero && b.isZero
  | .times => a.isZero || b.isZero
  | .div => a.isZero && !b.isZero
  | _ => false

/-- Numbers are what the working arithmetic makes of them, and an operation that comes to zero is
the number zero. -/
def KeepsZero (x : String) : Expectation
  | .number c, a => Arithmetic.working.number c = .ok a
  | .integer _, _ => True
  | .tree op a b, s => Lacks x a → Lacks x b → vanishes op a b = true → s.isZero = true

/-- Trees from trees that lack `x` lack it, and zeros are kept. -/
def Clean (x : String) : Expectation :=
  fun q a => Tidy (Lacks x) q a ∧ KeepsZero x q a

theorem isZero_kept {c : Decimal} (hc : c.isZero = true) :
    Ensures (Clean x) (kept c) fun s => s.isZero = true :=
  fun a ha => Decimal.yieldsZero_plus hc a (mapError_eq_ok_iff.mp ha.2)

theorem isZero_rounded {c : Computation} (hc : Decimal.YieldsZero c.result) :
    Ensures (Clean x) (rounded c) fun s => s.isZero = true :=
  fun a ha => isZero_kept (hc a (mapError_eq_ok_iff.mp ha.2))

theorem isZero_sum (ha : a.isZero = true) (hb : b.isZero = true) :
    Ensures (Clean x) (sum a b) fun s => s.isZero = true := by
  obtain ⟨c, rfl, hc⟩ := exists_number ha
  obtain ⟨d, rfl, hd⟩ := exists_number hb
  exact isZero_rounded (Decimal.yieldsZero_add hc hd)

theorem isZero_difference (ha : a.isZero = true) (hb : b.isZero = true) :
    Ensures (Clean x) (difference a b) fun s => s.isZero = true := by
  obtain ⟨c, rfl, hc⟩ := exists_number ha
  obtain ⟨d, rfl, hd⟩ := exists_number hb
  exact isZero_rounded (Decimal.yieldsZero_add hc (Decimal.isZero_flip hd))

theorem isZero_product (ha : Lacks x a) (hb : Lacks x b) (h : a.isZero = true ∨ b.isZero = true) :
    Ensures (Clean x) (product a b) fun s => s.isZero = true := by
  unfold product
  split
  · exact isZero_rounded (Decimal.yieldsZero_mul ha hb h)
  · rw [if_pos (by simpa using h)]
    rfl

theorem isZero_quotient (ha : a.isZero = true) (hb : Lacks x b) (hzero : ¬ b.isZero = true) :
    Ensures (Clean x) (quotient a b) fun s => s.isZero = true := by
  unfold quotient
  split
  · rename_i c d
    obtain ⟨q, hq, hvalue⟩ : ∃ q, Decimal.div .working c d = .ok q ∧ q.isZero = true :=
      Decimal.exists_div_of_isZero ha hb hzero
    have hinteger : Arithmetic.working.integer (.quotient c d) = .ok (some q) := by
      have hintegral : q.isIntegral = true := by
        obtain ⟨_, _, rfl⟩ := Decimal.isZero_iff.mp hvalue
        simp [Decimal.isIntegral]
      refine bind_eq_ok_iff.mpr ⟨q, by rw [hq]; rfl, ?_⟩
      rw [IntegerComputation.ifIntegral, if_pos hintegral]
      rfl
    have hd : ¬ d.isZero = true := hzero
    rw [quotientOfNumbers, if_neg hd]
    rintro r ⟨⟨hr, -⟩, -⟩
    rw [hinteger] at hr
    cases hr
    exact isZero_kept hvalue
  · rw [if_pos ha]
    rfl

theorem isZero_rule (op : Binary) (ha : Lacks x a) (hb : Lacks x b)
    (h : vanishes op a b = true) : Ensures (Clean x) (rule op a b) fun s => s.isZero = true := by
  cases op with
  | plus =>
    obtain ⟨ha, hb⟩ := Bool.and_eq_true_iff.mp h
    exact isZero_sum ha hb
  | minus =>
    obtain ⟨ha, hb⟩ := Bool.and_eq_true_iff.mp h
    exact isZero_difference ha hb
  | times => exact isZero_product ha hb (Bool.or_eq_true_iff.mp h)
  | div =>
    obtain ⟨ha, hzero⟩ := Bool.and_eq_true_iff.mp h
    exact isZero_quotient ha hb (by simpa using hzero)
  | _ => cases h

theorem fulfills_clean (x : String) : Arithmetic.working.Fulfills (Clean x) where
  number c a h := ⟨(fulfills_working (Lacks x)).number c a h, h⟩
  integer c r h := ⟨(fulfills_working (Lacks x)).integer c r h, trivial⟩
  rule op a b :=
    (((fulfills_working (Lacks x)).rule op a b).weaken fun _ _ h => h.1).and
      (.forall_intro fun ha => .forall_intro fun hb => .forall_intro fun h =>
        isZero_rule op ha hb h)

/-! ### Zero divided by zero -/

/-- Whether a question is for zero divided by zero. -/
def Question.isZeroByZero : Question → Bool
  | .tree .div a b => a.isZero && b.isZero
  | _ => false

/-- Whether somebody who follows the plan is asked such a question. -/
def Plan.asks {α : Type} (such : Question → Bool)
    (answer : (q : Question) → Except Failure q.Answer) : Plan α → Bool
  | .done _ | .fail _ => false
  | .ask q next =>
    such q ||
      match answer q with
      | .ok a => (next a).asks such answer
      | .error _ => false

/-- Questions that are not asked need not be answered. -/
theorem Ensures.follow_of_asks {E : Expectation} {such : Question → Bool}
    {answer : (q : Question) → Except Failure q.Answer} {α : Type} {p : Plan α} {P : α → Prop}
    (hanswer : ∀ q a, answer q = .ok a → E q a)
    (h : Ensures (fun q a => E q a ∧ such q = false) p P) (hasks : p.asks such answer = false)
    {a : α} (ha : p.follow answer = .ok a) : P a := by
  induction p with
  | done b => cases ha; exact h
  | fail f => cases ha
  | ask q next ih =>
    obtain ⟨b, hb, hnext⟩ := bind_eq_ok_iff.mp ha
    rw [Plan.asks, hb, Bool.or_eq_false_iff] at hasks
    exact ih b (h b ⟨hanswer q b hb, hasks.1⟩) hasks.2 hnext

/-! ### Derivatives -/

/-- Nothing is divided by zero but what is not zero. -/
def Regular (x : String) : Expectation :=
  fun q a => Clean x q a ∧ q.isZeroByZero = false

abbrev Vanishes (x : String) (p : Plan Tree) : Prop :=
  Ensures (Regular x) p fun s => s.isZero = true

theorem Builds.regular {p : Plan Tree} (h : Builds (Lacks x) p) :
    Ensures (Regular x) p (Lacks x) :=
  h.weaken fun _ _ hq => hq.1.1

namespace Vanishes

theorem combine (ha : Lacks x a) (hb : Lacks x b) (h : vanishes op a b = true) :
    Vanishes x (Plan.combine op a b) :=
  fun _ hs => hs.1.2 ha hb h

theorem timesLeft (ha : a.isZero = true) (hb : Lacks x b) : Vanishes x (Plan.combine .times a b) :=
  combine (lacks_of_isZero ha) hb (Bool.or_eq_true_iff.mpr (.inl ha))

theorem timesRight (ha : Lacks x a) (hb : b.isZero = true) : Vanishes x (Plan.combine .times a b) :=
  combine ha (lacks_of_isZero hb) (Bool.or_eq_true_iff.mpr (.inr hb))

theorem opposite (ha : a.isZero = true) : Vanishes x (opposite a) :=
  timesRight rfl ha

theorem sign (hop : op.isSign = true) (ha : a.isZero = true) (hb : b.isZero = true) :
    Vanishes x (Plan.combine op a b) := by
  refine combine (lacks_of_isZero ha) (lacks_of_isZero hb) ?_
  cases op with
  | plus | minus => exact Bool.and_eq_true_iff.mpr ⟨ha, hb⟩
  | _ => cases hop

theorem div (ha : a.isZero = true) (hb : Lacks x b) : Vanishes x (Plan.combine .div a b) := by
  intro s hs
  have hzero : b.isZero = false := by simpa [Question.isZeroByZero, ha] using hs.2
  exact hs.1.2 (lacks_of_isZero ha) hb (by simp [vanishes, ha, hzero])

end Vanishes

/-! ### Rules for functions -/

section
variable (hu : Lacks x u)
include hu

theorem builds_squareMinusOne : Builds (Lacks x) (squareMinusOne u) :=
  (Builds.square hu).bind fun _ h => Builds.combine h Builds.one

theorem builds_onePlusSquare : Builds (Lacks x) (onePlusSquare u) :=
  (Builds.square hu).bind fun _ h => Builds.combine Builds.one h

theorem builds_circleRoot : Builds (Lacks x) (circleRoot u) :=
  (Builds.oneMinusSquare hu).bind fun _ => Builds.sqrt

theorem builds_secantRoot : Builds (Lacks x) (secantRoot u) :=
  (builds_squareMinusOne hu).bind fun _ h => (Builds.sqrt h).bind fun _ =>
    Builds.combine (a := unary .abs u) hu

theorem builds_secantTangent : Builds (Lacks x) (secantTangent u) :=
  (Builds.tan hu).bind fun _ => Builds.combine (a := unary .sec u) hu

end

/-- What a rule builds beside the derivative of the operand lacks `x`. -/
def ChainRuleBuilds (x : String) (rule : ChainRule) (u : Tree) : Prop :=
  match rule with
  | .factor g | .divisor g | .negatedDivisor g | .oppositeOfDivisor g => Builds (Lacks x) (g u)
  | .constant | .same | .linear | .none => True

theorem builds_chainRule (op : Unary) (hu : Lacks x u) : ChainRuleBuilds x op.chainRule u := by
  have hroot {t : Tree} : Lacks x t → Builds (Lacks x) (sqrt t) := Builds.sqrt
  have hsquare {t : Tree} : Lacks x t → Builds (Lacks x) (square t) := Builds.square
  have hcombine {op : Binary} {a b : Tree} :
      Lacks x a → Lacks x b → Builds (Lacks x) (Plan.combine op a b) := Builds.combine
  have hone : Lacks x .one := Builds.one
  cases op with
  | sin => exact Builds.cos hu
  | cos => exact (Builds.sin hu).bind fun _ => Builds.opposite
  | tan =>
    exact (Builds.tan hu).bind fun _ h => (hsquare h).bind fun _ => hcombine hone
  | cotan =>
    exact (Builds.cotan hu).bind fun _ h => (hsquare h).bind fun _ => hcombine Builds.minusOne
  | sec | exsec => exact builds_secantTangent hu
  | csc =>
    exact (Builds.cotan hu).bind fun _ h => (hcombine (a := unary .csc u) hu h).bind fun _ =>
      Builds.opposite
  | vers => exact Builds.sin hu
  | covers => exact (Builds.cos hu).bind fun _ => Builds.opposite
  | hav => exact (Builds.sin hu).bind fun _ h => hcombine h Builds.two
  | sinc =>
    exact (Builds.cos hu).bind fun _ h => (hcombine hu h).bind fun _ h =>
      (Builds.sin hu).bind fun _ h' => (hcombine h h').bind fun _ h =>
      (hsquare hu).bind fun _ => hcombine h
  | sinh | cosh => exact hu
  | tanh => exact Builds.oneMinusSquare (t := unary .tanh u) hu
  | cotanh => exact Builds.oneMinusSquare (t := unary .cotanh u) hu
  | sech =>
    exact (hcombine (a := unary .sech u) (b := unary .tanh u) hu hu).bind fun _ => Builds.opposite
  | csch =>
    exact (hcombine (a := unary .csch u) (b := unary .cotanh u) hu hu).bind fun _ =>
      Builds.opposite
  | exp => exact Builds.exp hu
  | ln => exact hcombine hone hu
  | abs => exact hcombine (b := unary .abs u) hu hu
  | sqrt => exact (hroot hu).bind fun _ => hcombine Builds.two
  | asin | acos => exact builds_circleRoot hu
  | atan | acotan => exact builds_onePlusSquare hu
  | asec | acsc => exact builds_secantRoot hu
  | aexsec =>
    exact (hcombine hu hone).bind fun s hs => (hcombine hu hone).bind fun _ h =>
      (builds_squareMinusOne h).bind fun _ h => (hroot h).bind fun _ =>
      hcombine (a := unary .abs s) hs
  | avers | acovers => exact (hcombine hone hu).bind fun _ => builds_circleRoot
  | ahav => exact (hsquare hu).bind fun _ h => (hcombine hu h).bind fun _ => hroot
  | asinh => exact (hsquare hu).bind fun _ h => (hcombine h hone).bind fun _ => hroot
  | acosh => exact (builds_squareMinusOne hu).bind fun _ => hroot
  | atanh | acoth => exact Builds.oneMinusSquare hu
  | asech => exact (builds_circleRoot hu).bind fun _ => hcombine hu
  | acsch =>
    exact (builds_onePlusSquare hu).bind fun _ h => (hroot h).bind fun _ =>
      hcombine (a := unary .abs u) hu
  | floor | ceil | round | fpart | degToRad | degToGrad | radToDeg | radToGrad | gradToDeg |
    gradToRad | not | fac | sfac => trivial

namespace Vanishes
variable {derivative : Tree → Plan Tree}

theorem apply {op : Unary} (hop : op.isConversion = false) (hu : Lacks x u)
    (h : Vanishes x (derivative u)) : Vanishes x (op.chainRule.apply op u derivative) := by
  have hbuilds := builds_chainRule op hu
  unfold Unary.isConversion at hop
  cases hrule : op.chainRule with
  | constant => rfl
  | same => exact h
  | linear =>
    rw [hrule] at hop
    cases hop
  | factor g =>
    rw [hrule] at hbuilds
    exact h.bind fun _ hdu => (Builds.regular hbuilds).bind fun _ hg => timesLeft hdu hg
  | divisor g =>
    rw [hrule] at hbuilds
    exact h.bind fun _ hdu => (Builds.regular hbuilds).bind fun _ hg => div hdu hg
  | negatedDivisor g =>
    rw [hrule] at hbuilds
    exact h.bind fun _ hdu => (opposite hdu).bind fun _ hdu =>
      (Builds.regular hbuilds).bind fun _ hg => div hdu hg
  | oppositeOfDivisor g =>
    rw [hrule] at hbuilds
    exact h.bind fun _ hdu => (Builds.regular hbuilds).bind fun _ hg =>
      (div hdu hg).bind fun _ => opposite
  | none => exact h.bind fun _ _ => trivial

/-! ### Rules for operations -/

variable (hderivative : ∀ t, Lacks x t → Vanishes x (derivative t))
include hderivative

theorem derivativeOfTerms (ht : Lacks x t) :
    Vanishes x (Tree.foldSpine Binary.isSign derivative Plan.combine t) := by
  induction t with
  | number | var | unary => exact hderivative _ ht
  | binary op a b iha ihb =>
    obtain ⟨ha, hb⟩ := Bool.and_eq_true_iff.mp ht
    rw [Tree.foldSpine]
    split
    · exact (iha ha).bind fun _ hda => (hderivative b hb).bind fun _ => sign ‹_› hda
    · exact hderivative _ ht

theorem derivativeOfPower (ha : Lacks x a) (hb : Lacks x b) :
    Vanishes x (Tree.derivativeOfPower derivative a b) := by
  unfold Tree.derivativeOfPower
  split
  · exact (Builds.regular (Builds.ln ha)).bind fun _ hln => (hderivative b hb).bind fun _ hdb =>
      (timesRight hln hdb).bind fun _ h => timesLeft h (lacks_binary ha hb)
  · exact (hderivative a ha).bind fun _ hda =>
      (Builds.regular (Builds.combine hb Builds.one)).bind fun _ hlower =>
      (Builds.regular (Builds.combine ha hlower)).bind fun _ hpower =>
      (Builds.regular (Builds.combine hb hpower)).bind fun _ => timesLeft hda
  · exact (Builds.regular (Builds.ln ha)).bind fun _ hln =>
      (hderivative b hb).bind fun _ hdb => (timesLeft hdb hln).bind fun _ hleft =>
      (hderivative _ hln).bind fun _ hdln => (timesLeft hdln hb).bind fun _ hright =>
      (sign rfl hleft hright).bind fun _ => timesRight (lacks_binary ha hb)

end Vanishes

theorem vanishes_derivativeLevels (levels : Nat) (ht : Lacks x t) :
    Vanishes x (Tree.derivativeLevels x levels t) := by
  induction levels generalizing t with
  | zero => trivial
  | succ levels ih =>
    have hderivative : ∀ t, Lacks x t → Vanishes x (Tree.derivativeLevels x levels t) :=
      fun _ => ih
    cases t with
    | number a => rfl
    | var y =>
      have hy : ¬ Text.lowercase y.toList = Text.lowercase x.toList := of_decide_eq_true ht
      rw [Tree.derivativeLevels, if_neg hy]
      rfl
    | unary op u =>
      obtain ⟨hop, hu⟩ := Bool.and_eq_true_iff.mp ht
      exact Vanishes.apply (by simpa using hop) hu (ih hu)
    | binary op a b =>
      obtain ⟨ha, hb⟩ := Bool.and_eq_true_iff.mp ht
      cases op with
      | plus | minus => exact Vanishes.derivativeOfTerms hderivative ht
      | times =>
        exact (ih hb).bind fun _ hdb => (Vanishes.timesRight ha hdb).bind fun _ hleft =>
          (ih ha).bind fun _ hda => (Vanishes.timesLeft hda hb).bind fun _ =>
          Vanishes.sign rfl hleft
      | div =>
        exact (ih ha).bind fun _ hda => (Vanishes.timesRight hb hda).bind fun _ hleft =>
          (ih hb).bind fun _ hdb => (Vanishes.timesRight ha hdb).bind fun _ hright =>
          (Vanishes.sign rfl hleft hright).bind fun _ hzero =>
          (Builds.regular (Builds.square hb)).bind fun _ => Vanishes.div hzero
      | power => exact Vanishes.derivativeOfPower hderivative ha hb
      | log =>
        exact (Builds.regular (Builds.ln ha)).bind fun _ ha =>
          (Builds.regular (Builds.ln hb)).bind fun _ hb =>
          (Builds.regular (Builds.combine ha hb)).bind fun _ => ih
      | modulo =>
        exact (ih ha).bind fun _ hda => (ih hb).bind fun _ hdb =>
          (Builds.regular (Builds.combine ha hb)).bind fun q hq =>
          (Vanishes.timesLeft (b := unary .floor q) hdb hq).bind fun _ => Vanishes.sign rfl hda
      | _ => trivial

end Simplify

namespace Tree

/-- Whether somebody who derives the tree comes upon zero divided by zero. -/
def dividesZeroByZero (x : String) (t : Tree) : Bool :=
  (derivativePlan x t).asks Simplify.Question.isZeroByZero
    (Simplify.Arithmetic.working.answer (Simplify.combineBy .working))

theorem isZero_derivative {x : String} {t d : Tree} (ht : t.lacks x = true)
    (hdivides : t.dividesZeroByZero x = false) (hd : t.derivative x = .ok d) : d.isZero = true :=
  Simplify.Ensures.follow_of_asks
    ((Simplify.fulfills_clean x).answer fun op a b s =>
      (Simplify.fulfills_clean x).combineWithin _ op a b s)
    (Simplify.vanishes_derivativeLevels (maxDepth + 1) ht) hdivides hd

theorem simplifyFully_of_isZero {d : Tree} (hd : d.isZero = true) : d.simplifyFully = .ok d := by
  obtain ⟨a, rfl, ha⟩ := Simplify.exists_number hd
  obtain ⟨_, _, rfl⟩ := Decimal.isZero_iff.mp ha
  exact simplifyFully_of_isNormal rfl rfl rfl

/-- The derivative of a tree that lacks the variable is the number zero, also when it is simplified,
unless zero was divided by zero on the way. So it has the value zero whatever is bound to the names
of the tree. -/
theorem derivative_vanishes {x : String} {t d : Tree} (ht : t.lacks x = true)
    (hdivides : t.dividesZeroByZero x = false) (hd : t.derivative x = .ok d) :
    ∃ s, d.simplifyFully = .ok s ∧ ∀ unit bindings, ∃ a,
      s.value Formula.readFormula unit bindings = .ok a ∧ a.toRat? = some 0 := by
  have hzero := isZero_derivative ht hdivides hd
  refine ⟨d, simplifyFully_of_isZero hzero, fun unit bindings => ?_⟩
  obtain ⟨a, rfl, ha⟩ := Simplify.exists_number hzero
  exact ⟨a, rfl, (Decimal.toRat?_eq_of_same ha).trans Decimal.toRat?_zero⟩

/-- The divisor for `asin (1 / 2)` is a root, and no number. -/
theorem derivative_vanishes_asin :
    let t := binary .times (var "y") (unary .asin (binary .div one two))
    t.lacks "x" = true ∧ t.dividesZeroByZero "x" = false ∧ t.derivative "x" = .ok zero ∧
      ∃ s, zero.simplifyFully = .ok s ∧ ∀ unit bindings, ∃ a,
        s.value Formula.readFormula unit bindings = .ok a ∧ a.toRat? = some 0 := by
  intro t
  have ht : t.lacks "x" = true := by decide +kernel
  have hdivides : t.dividesZeroByZero "x" = false := by decide +kernel
  have hd : t.derivative "x" = .ok zero := by decide +kernel
  exact ⟨ht, hdivides, hd, derivative_vanishes ht hdivides hd⟩

/-- The divisor for `asin 1` is the number zero. -/
theorem simplifyFully_derivative_asin_one :
    (unary .asin one).lacks "x" = true ∧
      (unary .asin one).derivative "x" = .ok (binary .div zero zero) ∧
      (binary .div zero zero).simplifyFully = .ok (binary .div zero zero) := by
  decide +kernel

end Tree

end Reckon
