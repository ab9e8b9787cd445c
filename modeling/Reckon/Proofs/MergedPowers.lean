import Reckon.Proofs.DifferenceRules
import Reckon.Proofs.Normal
import Reckon.Proofs.ProductRules
import Reckon.Proofs.RealAnswers
import Reckon.Proofs.RealReading
import Reckon.Proofs.SumRules

/-!
# Trees with merged powers

The rules multiply the exponents of a power of a power, and they make such powers themselves where
they square a factor. `Reads I ρ t y w` says that `w` is the power of `t` with the exponent `y` when
exponents that are numbers are multiplied first. Read like this every operation keeps its meaning in
every tree that the rules put in place of it (`ensures_standsFor`). Where no power with a number as
the exponent has such a power as its base (`Tree.IsFlat`), the reading is the real value
(`readsAs_iff`).
-/

namespace Reckon

open Reckon.Tree (number var unary binary)

namespace Tree

/-- A power with a number as the exponent. -/
def isLiteralPower : Tree → Bool
  | binary .power _ (number _) => true
  | _ => false

/-- A power of such a power that has a number as the exponent too. -/
def nests (op : Binary) (a b : Tree) : Bool :=
  op = .power && a.isLiteralPower && b.isNumber

/-- Finite numbers, and no power of a power with numbers as exponents. -/
def IsFlat : Tree → Prop
  | number a => a.isFinite = true
  | var _ => True
  | unary _ a => a.IsFlat
  | binary op a b => a.IsFlat ∧ b.IsFlat ∧ nests op a b = false

end Tree

namespace Simplify

open Reckon.Tree (isLiteralPower nests)

variable (I : RealInterpretation) (ρ : String → ℝ)

/-- The power of the tree with the exponent `y` is `w`, with the exponents that are numbers
multiplied first. -/
def Reads : Tree → ℝ → ℝ → Prop
  | number a, y, w => ∃ q : ℚ, a.toRat? = some q ∧ PowerIs q y w
  | var x, y, w => PowerIs (ρ x) y w
  | unary op a, y, w => ∃ u v, Reads a 1 u ∧ op.real? I u = some v ∧ PowerIs v y w
  | binary .power a (number n), y, w => ∃ q : ℚ, n.toRat? = some q ∧ Reads a (q * y) w
  | binary op a b, y, w =>
    ∃ u v z, Reads a 1 u ∧ Reads b 1 v ∧ op.real? I u v = some z ∧ PowerIs z y w

variable {I ρ} {a b s t : Tree} {op : Binary} {u v w w' y : ℝ}

theorem exists_of_isLiteralPower (h : t.isLiteralPower = true) :
    ∃ p n, t = binary .power p (number n) := by
  unfold isLiteralPower at h
  split at h
  · exact ⟨_, _, rfl⟩
  · cases h

/-- A tree of two operands is a power with a number as the exponent or not. -/
theorem reads_binary_cases (op : Binary) (a b : Tree) :
    (op = .power ∧ ∃ n, b = number n) ∨ (binary op a b).isLiteralPower = false := by
  by_cases h : (binary op a b).isLiteralPower = true
  · obtain ⟨_, n, heq⟩ := exists_of_isLiteralPower h
    cases heq
    exact .inl ⟨rfl, n, rfl⟩
  · exact .inr (by simpa using h)

namespace Reads

theorem literalPower_iff {n : Decimal} : Reads I ρ (binary .power a (number n)) y w ↔
    ∃ q : ℚ, n.toRat? = some q ∧ Reads I ρ a (q * y) w := by
  rw [Reads]

theorem binary_iff (h : (binary op a b).isLiteralPower = false) :
    Reads I ρ (binary op a b) y w ↔
      ∃ u v z, Reads I ρ a 1 u ∧ Reads I ρ b 1 v ∧ op.real? I u v = some z ∧ PowerIs z y w := by
  rw [Reads]
  rintro n rfl rfl
  cases h

/-- Unless it is such a power itself, a tree has a value of which one takes the power. -/
theorem iff_powerIs (h : t.isLiteralPower = false) :
    Reads I ρ t y w ↔ ∃ u, Reads I ρ t 1 u ∧ PowerIs u y w := by
  cases t with
  | number a =>
    simp only [Reads, PowerIs.one_iff]
    constructor
    · rintro ⟨q, hq, hw⟩
      exact ⟨q, ⟨q, hq, rfl⟩, hw⟩
    · rintro ⟨_, ⟨q, hq, rfl⟩, hw⟩
      exact ⟨q, hq, hw⟩
  | var x => simp [Reads, PowerIs.one_iff]
  | unary op a =>
    simp only [Reads, PowerIs.one_iff]
    constructor
    · rintro ⟨u, v, ha, hv, hw⟩
      exact ⟨v, ⟨u, v, ha, hv, rfl⟩, hw⟩
    · rintro ⟨_, ⟨u, v, ha, hv, rfl⟩, hw⟩
      exact ⟨u, v, ha, hv, hw⟩
  | binary op a b =>
    simp only [binary_iff h, PowerIs.one_iff]
    constructor
    · rintro ⟨u, v, z, ha, hb, hz, hw⟩
      exact ⟨z, ⟨u, v, z, ha, hb, hz, rfl⟩, hw⟩
    · rintro ⟨_, ⟨u, v, z, ha, hb, hz, rfl⟩, hw⟩
      exact ⟨u, v, z, ha, hb, hz, hw⟩

/-- Under its exponents a tree has a value of which one takes all powers. -/
theorem exists_base (h : Reads I ρ t y w) : ∃ u e, PowerIs u (e * y) w ∧
    ∀ y' w', PowerIs u (e * y') w' → Reads I ρ t y' w' := by
  have hplain {t : Tree} {y : ℝ} (ht : t.isLiteralPower = false) (h : Reads I ρ t y w) :
      ∃ u e, PowerIs u (e * y) w ∧ ∀ y' w', PowerIs u (e * y') w' → Reads I ρ t y' w' := by
    obtain ⟨u, hu, hw⟩ := (iff_powerIs ht).mp h
    refine ⟨u, 1, by rwa [one_mul], fun y' w' hw' => (iff_powerIs ht).mpr ⟨u, hu, ?_⟩⟩
    rwa [one_mul] at hw'
  induction t generalizing y with
  | number | var | unary => exact hplain rfl h
  | binary op a b iha =>
    rcases reads_binary_cases op a b with ⟨rfl, n, rfl⟩ | hpower
    · obtain ⟨q, hq, ha⟩ := literalPower_iff.mp h
      obtain ⟨u, e, hw, hall⟩ := iha ha
      refine ⟨u, e * q, by rwa [mul_assoc], fun y' w' hw' => literalPower_iff.mpr ⟨q, hq, ?_⟩⟩
      exact hall _ _ (by rwa [← mul_assoc])
    · exact hplain hpower h

theorem eq_one (h : Reads I ρ t 0 w) : w = 1 := by
  obtain ⟨u, e, hw, -⟩ := h.exists_base
  rw [mul_zero] at hw
  exact hw.eq_one

/-- The square of a power has twice the exponent. -/
theorem square (h : Reads I ρ t y w) : Reads I ρ t (2 * y) (w * w) := by
  obtain ⟨u, e, hw, hall⟩ := h.exists_base
  refine hall _ _ ?_
  rw [mul_left_comm, two_mul]
  exact hw.mul hw

/-- Trees that are the same read the same. -/
theorem unique_of_same (hsame : t.same s = true) (ht : Reads I ρ t y w) (hs : Reads I ρ s y w') :
    w = w' := by
  induction t generalizing s y w w' with
  | number a =>
    cases s with
    | number b =>
      obtain ⟨p, hp, hw⟩ := ht
      obtain ⟨q, hq, hw'⟩ := hs
      obtain rfl : p = q :=
        Option.some.inj (hp.symm.trans ((Decimal.toRat?_eq_of_same hsame).trans hq))
      exact hw.unique hw'
    | var | unary | binary => cases hsame
  | var x =>
    cases s with
    | var z =>
      obtain rfl : x = z := by simpa [Tree.same] using hsame
      exact PowerIs.unique ht hs
    | number | unary | binary => cases hsame
  | unary op a ih =>
    cases s with
    | unary op' a' =>
      rw [Tree.same, Bool.and_eq_true, decide_eq_true_eq] at hsame
      obtain ⟨rfl, ha⟩ := hsame
      obtain ⟨u, v, hu, hv, hw⟩ := ht
      obtain ⟨u', v', hu', hv', hw'⟩ := hs
      obtain rfl := ih ha hu hu'
      obtain rfl := Option.some.inj (hv.symm.trans hv')
      exact hw.unique hw'
    | number | var | binary => cases hsame
  | binary op a b iha ihb =>
    cases s with
    | binary op' a' b' =>
      rw [Tree.same, Bool.and_eq_true, Bool.and_eq_true, decide_eq_true_eq] at hsame
      obtain ⟨⟨rfl, ha⟩, hb⟩ := hsame
      rcases reads_binary_cases op a b with ⟨rfl, n, rfl⟩ | hpower
      · cases b' with
        | number n' =>
          obtain ⟨p, hp, hu⟩ := literalPower_iff.mp ht
          obtain ⟨q, hq, hu'⟩ := literalPower_iff.mp hs
          obtain rfl : p = q :=
            Option.some.inj (hp.symm.trans ((Decimal.toRat?_eq_of_same hb).trans hq))
          exact iha ha hu hu'
        | var | unary | binary => cases hb
      · have hpower' : (binary op a' b').isLiteralPower = false := by
          rcases reads_binary_cases op a' b' with ⟨rfl, n, rfl⟩ | hpower'
          · cases b with
            | number => cases hpower
            | var | unary | binary => cases hb
          · exact hpower'
        obtain ⟨u, v, z, hu, hv, hz, hw⟩ := (binary_iff hpower).mp ht
        obtain ⟨u', v', z', hu', hv', hz', hw'⟩ := (binary_iff hpower').mp hs
        obtain rfl := iha ha hu hu'
        obtain rfl := ihb hb hv hv'
        obtain rfl := Option.some.inj (hz.symm.trans hz')
        exact hw.unique hw'
    | number | var | unary => cases hsame

end Reads

/-! ### A meaning -/

variable (I ρ) in
/-- The value of a tree read with merged powers. -/
abbrev ReadsAs (t : Tree) (w : ℝ) : Prop :=
  Reads I ρ t 1 w

theorem readsAs_binary_iff (h : (binary op a b).isLiteralPower = false) :
    ReadsAs I ρ (binary op a b) w ↔
      ∃ u v, ReadsAs I ρ a u ∧ ReadsAs I ρ b v ∧ op.real? I u v = some w := by
  simp only [ReadsAs, Reads.binary_iff h, PowerIs.one_iff]
  constructor
  · rintro ⟨u, v, z, ha, hb, hz, rfl⟩
    exact ⟨u, v, ha, hb, hz⟩
  · rintro ⟨u, v, ha, hb, hz⟩
    exact ⟨u, v, w, ha, hb, hz, rfl⟩

theorem readsAs_unary_iff {op : Unary} :
    ReadsAs I ρ (unary op a) w ↔ ∃ u, ReadsAs I ρ a u ∧ op.real? I u = some w := by
  simp only [ReadsAs, Reads, PowerIs.one_iff]
  constructor
  · rintro ⟨u, z, ha, hz, rfl⟩
    exact ⟨u, ha, hz⟩
  · rintro ⟨u, ha, hz⟩
    exact ⟨u, w, ha, hz, rfl⟩

theorem readsAs_number_iff {c : Decimal} :
    ReadsAs I ρ (number c) w ↔ ∃ q : ℚ, c.toRat? = some q ∧ w = q := by
  simp only [ReadsAs, Reads, PowerIs.one_iff, eq_comm]

instance : IsMeaning (ReadsAs I ρ) where
  number_iff := by simp [readsAs_number_iff]
  plus_iff := by
    intro a b w
    rw [readsAs_binary_iff rfl]
    simp [eq_comm]
  minus_iff := by
    intro a b w
    rw [readsAs_binary_iff rfl]
    simp [eq_comm]
  times_iff := by
    intro a b w
    rw [readsAs_binary_iff rfl]
    simp [eq_comm]
  div_iff := by
    intro a b w
    rw [readsAs_binary_iff rfl]
    simp [Binary.real?_div_iff]
  eq_of_same := Reads.unique_of_same

/-- A power of a tree that is no power with a number as the exponent. -/
theorem readsAs_power_iff (ha : a.isLiteralPower = false) :
    ReadsAs I ρ (binary .power a b) w ↔
      ∃ u v, ReadsAs I ρ a u ∧ ReadsAs I ρ b v ∧ PowerIs u v w := by
  rcases reads_binary_cases .power a b with ⟨-, n, rfl⟩ | hpower
  · simp only [ReadsAs, Reads.literalPower_iff, mul_one, readsAs_number_iff]
    constructor
    · rintro ⟨q, hq, h⟩
      obtain ⟨u, hu, hw⟩ := (Reads.iff_powerIs ha).mp h
      exact ⟨u, q, hu, ⟨q, hq, rfl⟩, hw⟩
    · rintro ⟨u, _, hu, ⟨q, hq, rfl⟩, hw⟩
      exact ⟨q, hq, (Reads.iff_powerIs ha).mpr ⟨u, hu, hw⟩⟩
  · simp only [readsAs_binary_iff hpower, Binary.real?_power_iff]

/-! ### Answers -/

variable (I ρ) in
/-- The tree `s` may stand for the operation on `a` and `b`. -/
structure StandsFor (op : Binary) (a b s : Tree) : Prop where
  reads : ∀ w, ReadsAs I ρ (binary op a b) w → ReadsAs I ρ s w
  isNumber : ∀ x y q, a = number x → b = number y → computed? op x y = some q → IsNumber q s
  isZero : op = .times → a.isZero = true ∨ b.isZero = true → s.isZero = true

variable (I ρ) in
/-- Numbers are exact, and trees read as the operations that they stand for. -/
def Merging : Expectation
  | .number c, a => ∃ q, c.value? = some q ∧ a.toRat? = some q
  | .integer c, r => ∀ a ∈ r, ∃ q : ℚ, a.toRat? = some q ∧ c.HasValue q
  | .tree op a b, s => StandsFor I ρ op a b s

instance : KeepsSums (Merging I ρ) (ReadsAs I ρ) where
  number h := h
  isNumber h hq := h.isNumber _ _ _ rfl rfl hq
  plus h := h.reads _
  minus h := h.reads _
  scaled h := h.reads _

/-- The powers with the exponents `1 + n` and `n`. -/
theorem gives_times_readsAs {x z n : Tree} (hatom : x.isCompound = false) (hsame : z.same x = true)
    (hx : ReadsAs I ρ x v) (h : ReadsAs I ρ (binary .power z n) u) :
    Gives (Merging I ρ) (ReadsAs I ρ)
      (do Plan.combine .power x (← Plan.combine .plus .one n)) (v * u) := by
  have hx' : x.isLiteralPower = false := by
    cases x with
    | number | var => rfl
    | unary | binary => cases hatom
  have hz' : z.isLiteralPower = false := by
    cases x with
    | number | var =>
      cases z with
      | number | var => rfl
      | unary | binary => cases hsame
    | unary | binary => cases hatom
  obtain ⟨v', e, hz, he, hu⟩ := (readsAs_power_iff hz').mp h
  obtain rfl := IsMeaning.eq_of_same (D := ReadsAs I ρ) hsame hz hx
  refine (Gives.plus IsMeaning.one he).bind fun m hm s hs => hs.reads _ ?_
  exact (readsAs_power_iff hx').mpr ⟨v', 1 + e, hx, hm, (PowerIs.one v').mul hu⟩

instance : KeepsProducts (Merging I ρ) (ReadsAs I ρ) where
  times h := h.reads _
  isZero h := h.isZero rfl
  div h := h.reads _
  power h _ := h.reads _
  square := by
    intro a u ha
    refine Reads.literalPower_iff.mpr ⟨2, Decimal.toRat?_two, ?_⟩
    exact_mod_cast Reads.square ha
  quotient := by
    intro x y r h a ha
    obtain ⟨q, hq, x', y', hx, hy, hne, heq⟩ := h a ha
    refine ⟨q, ?_, hq⟩
    have : q = x' / y' := by exact_mod_cast heq
    rw [IntegerComputation.value?, hx, hy]
    simp [hne, this]
  times_power := gives_times_readsAs

/-! ### Rules -/

theorem gives_powerOfNumbers_readsAs {x y : Decimal}
    (h : ReadsAs I ρ (binary .power (number x) (number y)) w) :
    Gives (Merging I ρ) (ReadsAs I ρ) (powerOfNumbers x y) w := by
  unfold powerOfNumbers
  intro r hr
  cases r with
  | none => exact h
  | some z =>
    obtain ⟨q, hz, x', y', hx, hy, -, hq⟩ := hr z rfl
    obtain ⟨y'', hy', x'', hx', hw⟩ := Reads.literalPower_iff.mp h
    obtain rfl := Option.some.inj (hx.symm.trans hx')
    obtain rfl := Option.some.inj (hy.symm.trans hy')
    rw [mul_one] at hw
    exact (Gives.kept hz).of_eq ((eq_ratCast _ q).trans (hq.trans hw.2))

theorem gives_power_readsAs (h : ReadsAs I ρ (binary .power a b) w) :
    Gives (Merging I ρ) (ReadsAs I ρ) (power a b) w := by
  have hnumber {n : Decimal} {q : ℚ} (hb : b = number n) (hn : n.toRat? = some q) :
      Reads I ρ a q w := by
    subst hb
    obtain ⟨q', hn', h⟩ := Reads.literalPower_iff.mp h
    obtain rfl := Option.some.inj (hn.symm.trans hn')
    rwa [mul_one] at h
  have hzero (hb : b.isZero = true) : ReadsAs I ρ Tree.one w := by
    cases b with
    | number n =>
      have h := hnumber rfl ((Decimal.toRat?_eq_of_same hb).trans Decimal.toRat?_zero)
      rw [Rat.cast_zero] at h
      exact IsMeaning.of_eq (IsMeaning.one (D := ReadsAs I ρ)) h.eq_one.symm
    | var | unary | binary => cases hb
  have hone (hb : b.isOne = true) : ReadsAs I ρ a w := by
    cases b with
    | number n =>
      have h := hnumber rfl ((Decimal.toRat?_eq_of_same hb).trans Decimal.toRat?_one)
      rwa [Rat.cast_one] at h
    | var | unary | binary => cases hb
  unfold power
  split
  · split
    · rename_i hx
      rcases Bool.or_eq_true_iff.mp hx with hx | hy
      · obtain ⟨u, v, hu, -, hw⟩ := (readsAs_power_iff rfl).mp h
        obtain rfl := IsMeaning.eq_one hu hx
        exact IsMeaning.of_eq (IsMeaning.one (D := ReadsAs I ρ)) hw.of_one.symm
      · exact hzero hy
    split
    · exact hone ‹_›
    · exact gives_powerOfNumbers_readsAs h
  split
  · exact hzero ‹_›
  split
  · exact hone ‹_›
  split
  · -- a power of a power reads as the power with the product of the exponents
    rename_i p x y _ _ _
    obtain ⟨y', hy, h⟩ := Reads.literalPower_iff.mp h
    obtain ⟨x', hx, h⟩ := Reads.literalPower_iff.mp h
    refine Gives.bind_isNumber (ensures_computed (ReadsAs I ρ) (value?_product hx hy))
      fun m hm s hs => hs.reads _ (Reads.literalPower_iff.mpr ⟨_, hm, ?_⟩)
    rwa [Rat.cast_mul, mul_assoc]
  · exact h

theorem gives_rule_readsAs (h : ReadsAs I ρ (binary op a b) w) :
    Gives (Merging I ρ) (ReadsAs I ρ) (rule op a b) w := by
  cases op with
  | plus =>
    obtain ⟨_, _, ha, hb, rfl⟩ := IsMeaning.parts h
    exact Gives.sum ha hb
  | minus =>
    obtain ⟨_, _, ha, hb, rfl⟩ := IsMeaning.parts h
    exact Gives.difference ha hb
  | times =>
    obtain ⟨_, _, ha, hb, rfl⟩ := IsMeaning.parts h
    exact Gives.product ha hb
  | div => exact Gives.quotient h
  | power => exact gives_power_readsAs h
  | _ => exact h

theorem ensures_standsFor (op : Binary) (a b : Tree) :
    Ensures (Merging I ρ) (rule op a b) (StandsFor I ρ op a b) := by
  have hreads : Ensures (Merging I ρ) (rule op a b) fun s =>
      ∀ w, ReadsAs I ρ (binary op a b) w → ReadsAs I ρ s w :=
    .forall_intro fun w => .forall_intro fun h => gives_rule_readsAs h
  exact (hreads.and (ensures_shape (ReadsAs I ρ) op a b)).mono fun s h => ⟨h.1, h.2.1, h.2.2⟩

theorem fulfills_merging : Arithmetic.unrounded.Fulfills (Merging I ρ) where
  number _ _ h := (exact_number h).2
  integer _ _ h := (unrounded_integer h).2
  rule := ensures_standsFor

/-! ### Flat trees -/

theorem readsAs_operation_iff (h : nests op a b = false) :
    ReadsAs I ρ (binary op a b) w ↔
      ∃ u v, ReadsAs I ρ a u ∧ ReadsAs I ρ b v ∧ op.real? I u v = some w := by
  rcases reads_binary_cases op a b with ⟨rfl, n, rfl⟩ | hpower
  · have ha : a.isLiteralPower = false := by simpa [nests, Tree.isNumber] using h
    simp only [readsAs_power_iff ha, Binary.real?_power_iff]
  · exact readsAs_binary_iff hpower

/-- Where no powers nest, the reading is the value. -/
theorem readsAs_iff (h : t.IsFlat) : ReadsAs I ρ t w ↔ t.real? I ρ = some w := by
  induction t generalizing w with
  | number a => simp [readsAs_number_iff, Tree.real?, @eq_comm _ w]
  | var x => simp [Reads, PowerIs.one_iff, Tree.real?]
  | unary op a ih => simp [readsAs_unary_iff, Tree.real?, Option.bind_eq_some_iff, ih h]
  | binary op a b iha ihb =>
    simp only [readsAs_operation_iff h.2.2, iha h.1, ihb h.2.1, Tree.real?]
    simp [Option.bind_eq_some_iff]

theorem exists_of_nests (h : nests op a b = true) :
    ∃ p m n, op = .power ∧ a = binary .power p (number m) ∧ b = number n := by
  simp only [nests, Bool.and_eq_true, decide_eq_true_eq] at h
  obtain ⟨p, m, rfl⟩ := exists_of_isLiteralPower h.1.2
  cases b with
  | number n => exact ⟨p, m, n, h.1.1, rfl, rfl⟩
  | var | unary | binary => cases h.2

/-- The rule for a power of a power always has something to do. -/
theorem not_nests_of_rests (h : Rests op a b) : nests op a b = false := by
  by_contra hnests
  obtain ⟨p, m, n, rfl, rfl, rfl⟩ := exists_of_nests (by simpa using hnests)
  -- the rule asks for the product of the exponents
  have h := h fun _ _ _ => .error .tooDeep
  simp only [rule, power] at h
  split at h
  · cases h
  split at h
  · have hsize := congrArg Tree.size (Except.ok.inj h)
    simp only [Tree.size] at hsize
    omega
  · cases h

instance : IsInherited Tree.IsFlat where
  number_iff := Iff.rfl
  operand h := h
  operands h := ⟨h.1, h.2.1⟩
  unary _ ha _ := ha
  binary ha hb h := ⟨ha, hb, not_nests_of_rests h⟩

end Simplify

end Reckon
