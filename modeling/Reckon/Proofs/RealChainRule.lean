import Reckon.Proofs.RealAnswers
import Reckon.Tree.Derivative

/-!
# Rules for functions

The rules for functions undo an inverse function and take the root of a power by halving the
exponent. On operands inside the domain the first is always right, the second only if the base of
the power is not negative (`IsRadicand`). The radicands in derivatives are sums and differences with
a square: the square is of a positive base, or it is written down and so is the sum around it
(`ensures_square`, `IsRadicand.of_represents`).

With that every row of the table of derivatives multiplies by the slope of its function
(`Unary.multipliesBy_slope`).
-/

namespace Reckon

open Reckon.Tree (number var unary binary Has)

namespace Simplify

open ChainRule (squareMinusOne onePlusSquare circleRoot secantRoot secantTangent)

variable {ρ : String → ℝ} {op : Binary} {a b s t : Tree} {u v w : ℝ}

/-! ### Square roots -/

variable (ρ) in
/-- The root of a power is taken by halving the exponent, so the base must not be negative. -/
structure IsRadicand (t : Tree) (w : ℝ) : Prop where
  has : Has ρ .defined t w
  interior_or : Has ρ .interior t w ∨ ∀ a b, t ≠ binary .power a b

theorem IsRadicand.of_interior (h : Has ρ .interior t w) : IsRadicand ρ t w :=
  ⟨h.of_interior, .inl h⟩

theorem gives_sqrt (h : IsRadicand ρ t w) (hw : 0 ≤ w) :
    Gives Faithful (Has ρ .defined) (sqrt t) (√w) := by
  have hplain : Has ρ .defined (unary .sqrt t) (√w) := h.has.unary .sqrt hw
  unfold sqrt
  split
  · rename_i x
    refine Ensures.bind (P := fun _ => True) (Ensures.ofExcept fun _ => trivial) fun less _ => ?_
    cases less with
    | false => exact hplain
    | true =>
      intro r hr
      cases r with
      | none => exact hplain
      | some z =>
        obtain ⟨q, hz, x', hx, -, hq⟩ := hr z rfl
        refine (Gives.kept hz).of_eq ?_
        rw [eq_ratCast, hq, ← h.has.2, Tree.real_number hx]
  · rename_i p n
    intro r hr
    cases r with
    | none => exact hplain
    | some z =>
      obtain ⟨q, hz, x, hx, hq⟩ := hr z rfl
      have hinterior := h.interior_or.resolve_right fun h => h p (number n) rfl
      obtain ⟨v, hp, hv, rfl⟩ := (exists_of_power_number hx hinterior).resolve_right
        fun h => h.1 rfl
      refine Gives.bind_isNumber (ensures_kept (Has ρ .defined) hz) fun m hm s hs => ?_
      refine IsMeaning.of_eq (hs.hasPower (hp.power (IsMeaning.number hm) hv)) ?_
      rw [eq_ratCast, hq, Real.sqrt_eq_rpow, ← Real.rpow_mul hv.le, mul_one_div]
      push_cast
      rfl
  · exact hplain

theorem gives_square_of_pos (h : Has ρ .interior t v) (hv : 0 < v) :
    Gives Faithful (Has ρ .interior) (square t) (v * v) := by
  intro s hs
  have htwo : Has ρ .interior Tree.two 2 := IsMeaning.two
  refine IsMeaning.of_eq (hs.hasPower (h.power htwo hv)) ?_
  rw [Real.rpow_two, pow_two]

/-- Squares keep the strictest grade unless they are written down as such. -/
theorem ensures_square (h : Has ρ .interior t v) : Ensures Faithful (square t) fun s =>
    Has ρ .defined s (v * v) ∧ (Has ρ .interior s (v * v) ∨ s = binary .power t .two) := by
  intro s hs
  have hdefined : Has ρ .defined s (v * v) :=
    hs.hasPower (KeepsProducts.square Faithful h.of_interior)
  refine ⟨hdefined, ?_⟩
  cases t with
  | number x =>
    rcases hs.powerOfNumbers rfl rfl rfl with hnumber | rfl
    · cases s with
      | number c => exact .inl hdefined
      | var | unary | binary => cases hnumber
    · exact .inr rfl
  | var y => exact .inr (hs.eq_of_done _ rfl)
  | unary op a => exact .inr (hs.eq_of_done _ rfl)
  | binary op a b =>
    cases op with
    | power =>
      obtain ⟨u, e, -, -, hu, rfl⟩ := h.exists_of_power.resolve_right fun h => h.1 rfl
      exact .inl (gives_square_of_pos h (Real.rpow_pos_of_pos hu e) s hs)
    | _ => exact .inr (hs.eq_of_done _ rfl)

theorem has_sum {g : Grade} (hop : op = .plus ∨ op = .minus) (ha : Has ρ g a u) (hb : Has ρ g b v) :
    Has ρ g (binary op a b) (op.real u v) := by
  rcases hop with rfl | rfl
  · exact IsMeaning.plus ha hb
  · exact IsMeaning.minus ha hb

/-- A sum or a difference is a radicand if its terms keep the strictest grade, or if it is written
down as it is. -/
theorem IsRadicand.of_represents (hs : Represents op a b s) (hop : op = .plus ∨ op = .minus)
    (h : Has ρ .defined (binary op a b) w)
    (hcase : Has ρ .interior (binary op a b) w ∨ ∃ p q, rule op a b = .done (binary op p q)) :
    IsRadicand ρ s w := by
  have hgrade : ∀ g, KeepsGrade g op a := fun g _ => by
    rcases hop with rfl | rfl <;> simp
  refine ⟨hs.has _ _ _ (hgrade _) h, hcase.imp (hs.has _ _ _ (hgrade _)) fun hdone => ?_⟩
  obtain ⟨p, q, hdone⟩ := hdone
  rw [hs.eq_of_done _ hdone]
  rintro p q heq
  cases heq
  rcases hop with hop | hop <;> cases hop

section
variable (h : Has ρ .interior t v)
include h

theorem ensures_oneAndSquare (hop : op = .plus ∨ op = .minus) :
    Ensures Faithful (do Plan.combine op .one (← square t))
      (IsRadicand ρ · (op.real 1 (v * v))) := by
  refine (ensures_square h).bind fun s hs s' hs' => ?_
  refine .of_represents hs' hop (has_sum hop IsMeaning.one hs.1) ?_
  rcases hs.2 with hs | rfl
  · exact .inl (has_sum hop IsMeaning.one hs)
  · rcases hop with rfl | rfl <;> exact .inr ⟨_, _, rfl⟩

theorem ensures_squareAndOne (hop : op = .plus ∨ op = .minus) :
    Ensures Faithful (do Plan.combine op (← square t) .one)
      (IsRadicand ρ · (op.real (v * v) 1)) := by
  refine (ensures_square h).bind fun s hs s' hs' => ?_
  refine .of_represents hs' hop (has_sum hop hs.1 IsMeaning.one) ?_
  rcases hs.2 with hs | rfl
  · exact .inl (has_sum hop hs IsMeaning.one)
  · rcases hop with rfl | rfl <;> exact .inr ⟨_, _, rfl⟩

theorem gives_circleRoot (hv : 0 ≤ 1 - v * v) :
    Gives Faithful (Has ρ .defined) (circleRoot t) (√(1 - v * v)) :=
  (ensures_oneAndSquare h (.inr rfl)).bind fun _ hs => gives_sqrt hs hv

theorem gives_secantRoot (hv : 0 ≤ v * v - 1) :
    Gives Faithful (Has ρ .defined) (secantRoot t) (|v| * √(v * v - 1)) :=
  (ensures_squareAndOne h (.inr rfl)).bind fun _ hs => (gives_sqrt hs hv).bind fun _ hroot =>
    Gives.times (h.of_interior.unary .abs (Set.mem_univ _)) hroot

end

/-! ### Functions -/

section
variable (h : Has ρ .interior t v)
include h

theorem gives_sin : Gives Faithful (Has ρ .defined) (sin t) (Real.sin v) := by
  unfold sin
  split
  · obtain ⟨u, hu, hop, rfl⟩ := h.exists_of_unary
    obtain ⟨hle, hle'⟩ := interior_subset hop.1
    exact IsMeaning.of_eq hu.of_interior (Real.sin_arcsin hle hle').symm
  · obtain ⟨u, hu, hop, rfl⟩ := h.exists_of_unary
    obtain ⟨hle, hle'⟩ := interior_subset hop.1
    refine (gives_circleRoot hu (by nlinarith)).of_eq ?_
    rw [Unary.real, Real.sin_arccos, pow_two]
  · exact h.of_interior.unary .sin (Set.mem_univ _)

theorem gives_cos : Gives Faithful (Has ρ .defined) (cos t) (Real.cos v) := by
  unfold cos
  split
  · obtain ⟨u, hu, hop, rfl⟩ := h.exists_of_unary
    obtain ⟨hle, hle'⟩ := interior_subset hop.1
    exact IsMeaning.of_eq hu.of_interior (Real.cos_arccos hle hle').symm
  · obtain ⟨u, hu, hop, rfl⟩ := h.exists_of_unary
    obtain ⟨hle, hle'⟩ := interior_subset hop.1
    refine (gives_circleRoot hu (by nlinarith)).of_eq ?_
    rw [Unary.real, Real.cos_arcsin, pow_two]
  · exact h.of_interior.unary .cos (Set.mem_univ _)

theorem gives_tan (hv : Real.cos v ≠ 0) :
    Gives Faithful (Has ρ .defined) (tan t) (Real.tan v) := by
  unfold tan
  split
  · obtain ⟨u, hu, -, rfl⟩ := h.exists_of_unary
    exact IsMeaning.of_eq hu.of_interior (Real.tan_arctan u).symm
  · obtain ⟨u, hu, hop, rfl⟩ := h.exists_of_unary
    have hne : u ≠ 0 := interior_subset hop.1
    refine Gives.div (IsMeaning.of_eq IsMeaning.one ?_) hu.of_interior hne.isUnit
    rw [Unary.real, Real.tan_arctan, one_div_mul_cancel hne]
  · exact h.of_interior.unary .tan hv

theorem gives_cotan (hv : Real.sin v ≠ 0) :
    Gives Faithful (Has ρ .defined) (cotan t) (Unary.cotan.real v) := by
  unfold cotan
  split
  · obtain ⟨u, hu, hop, rfl⟩ := h.exists_of_unary
    refine IsMeaning.of_eq hu.of_interior ?_
    rw [Unary.real, Unary.real, ← one_div_div, ← Real.tan_eq_sin_div_cos, Real.tan_arctan,
      one_div_one_div]
  · exact h.of_interior.unary .cotan hv

theorem gives_exp : Gives Faithful (Has ρ .defined) (exp t) (Real.exp v) := by
  unfold exp
  split
  · obtain ⟨u, hu, hop, rfl⟩ := h.exists_of_unary
    exact IsMeaning.of_eq hu.of_interior (Real.exp_log (interior_subset hop.1)).symm
  split
  · rename_i hzero
    refine IsMeaning.of_eq (IsMeaning.one (D := Has ρ .defined)) ?_
    rw [IsMeaning.eq_zero h hzero, Real.exp_zero]
  · exact h.of_interior.unary .exp (Set.mem_univ _)

end

theorem has_ln (h : Has ρ .interior t v) (hv : 0 < v) :
    Has ρ .interior (unary .ln t) (Real.log v) := by
  obtain ⟨h, rfl⟩ := h
  exact ⟨⟨h, by rwa [Unary.domain, interior_Ioi], by simp⟩, rfl⟩

/-- The logarithm, which is built without questions, has its values at every point. -/
theorem exists_ln (t : Tree) : ∃ s, ln t = .done s ∧
    ∀ ρ w, Has ρ .interior (unary .ln t) w → Has ρ .interior s w := by
  unfold ln
  split
  · refine ⟨_, rfl, fun ρ w h => ?_⟩
    obtain ⟨v, hv, -, rfl⟩ := h.exists_of_unary
    obtain ⟨u, hu, -, rfl⟩ := hv.exists_of_unary
    exact IsMeaning.of_eq hu (Real.log_exp u).symm
  · exact ⟨_, rfl, fun ρ w h => h⟩

end Simplify

/-! ### Chain rules -/

open Simplify

variable {ρ : String → ℝ} {op : Unary} {t : Tree} {v w : ℝ}

variable (ρ) in
/-- With the operand `t` the rule multiplies by `m`. -/
def ChainRule.MultipliesBy (rule : ChainRule) (op : Unary) (t : Tree) (m : ℝ) : Prop :=
  match rule with
  | linear => op.domain = Set.univ ∧ ∀ u, op.real u = m * u
  | factor g => Gives Faithful (Has ρ .defined) (g t) m
  | divisor g => ∃ e, e ≠ 0 ∧ m = 1 / e ∧ Gives Faithful (Has ρ .defined) (g t) e
  | negatedDivisor g | oppositeOfDivisor g =>
    ∃ e, e ≠ 0 ∧ m = -(1 / e) ∧ Gives Faithful (Has ρ .defined) (g t) e
  | constant | same | none => False

/-- Inside the domain the rule of a function multiplies by the slope of the function. -/
theorem Unary.multipliesBy_slope (h : Has ρ .interior t v) (hop : op.IsInteriorAt v) :
    op.chainRule.MultipliesBy ρ op t (op.slope v) := by
  obtain ⟨hinterior, hkink⟩ := hop
  have hmem : v ∈ op.domain := interior_subset hinterior
  have hd : Has ρ .defined t v := h.of_interior
  have hfunction : ∀ op : Unary, v ∈ op.domain → Has ρ .defined (unary op t) (op.real v) :=
    fun op hv => hd.unary op hv
  have hone : Has ρ .defined Tree.one 1 := IsMeaning.one
  cases op with
  | sin => exact gives_cos h
  | cos => exact (gives_sin h).bind fun _ hs => Gives.opposite hs
  | tan =>
    exact (gives_tan h hmem).bind fun _ hs => (Gives.square hs).bind fun _ hs => Gives.plus hone hs
  | cotan =>
    exact (gives_cotan h hmem).bind fun _ hs => (Gives.square hs).bind fun _ hs =>
      Gives.minus IsMeaning.minusOne hs
  | sec | exsec =>
    exact (gives_tan h hmem).bind fun _ hs => Gives.times (hfunction .sec hmem) hs
  | csc =>
    exact (gives_cotan h hmem).bind fun _ hs =>
      (Gives.times (hfunction .csc hmem) hs).bind fun _ hs => Gives.opposite hs
  | vers => exact gives_sin h
  | covers => exact (gives_cos h).bind fun _ hs => Gives.opposite hs
  | hav =>
    refine (gives_sin h).bind fun _ hs => Gives.div (IsMeaning.of_eq hs ?_) IsMeaning.two ?_
    · rw [slope, div_mul_cancel₀ _ two_ne_zero]
    · exact two_ne_zero.isUnit
  | sinc =>
    have hne : v * v ≠ 0 := mul_ne_zero hmem hmem
    refine (gives_cos h).bind fun _ hc => (Gives.times hd hc).bind fun _ hc =>
      (gives_sin h).bind fun _ hs => (Gives.minus hc hs).bind fun _ hn =>
      (Gives.square hd).bind fun _ hs => Gives.div (IsMeaning.of_eq hn ?_) hs hne.isUnit
    rw [slope, div_mul_cancel₀ _ hne]
  | sinh => exact hfunction .cosh trivial
  | cosh => exact hfunction .sinh trivial
  | tanh =>
    exact (Gives.square (hfunction .tanh trivial)).bind fun _ hs => Gives.minus hone hs
  | cotanh =>
    exact (Gives.square (hfunction .cotanh hmem)).bind fun _ hs => Gives.minus hone hs
  | sech =>
    exact (Gives.times (hfunction .sech trivial) (hfunction .tanh trivial)).bind
      fun _ hs => Gives.opposite hs
  | csch =>
    exact (Gives.times (hfunction .csch hmem) (hfunction .cotanh hmem)).bind
      fun _ hs => Gives.opposite hs
  | exp => exact gives_exp h
  | ln =>
    have hne : v ≠ 0 := ne_of_gt hmem
    refine Gives.div (IsMeaning.of_eq hone ?_) hd hne.isUnit
    rw [slope, div_mul_cancel₀ _ hne]
  | abs =>
    have hne : |v| ≠ 0 := abs_ne_zero.mpr (hkink rfl)
    refine Gives.div (IsMeaning.of_eq hd ?_) (hfunction .abs trivial) hne.isUnit
    exact (div_mul_cancel₀ v hne).symm
  | sqrt =>
    rw [domain, interior_Ici] at hinterior
    refine ⟨2 * √v, mul_ne_zero two_ne_zero (Real.sqrt_ne_zero'.mpr hinterior), rfl, ?_⟩
    exact (gives_sqrt (.of_interior h) hmem).bind fun _ hs => Gives.times IsMeaning.two hs
  | asin =>
    rw [domain, interior_Icc] at hinterior
    have hpos : 0 < 1 - v * v := by nlinarith [hinterior.1, hinterior.2]
    exact ⟨_, Real.sqrt_ne_zero'.mpr hpos, rfl, gives_circleRoot h hpos.le⟩
  | acos =>
    rw [domain, interior_Icc] at hinterior
    have hpos : 0 < 1 - v * v := by nlinarith [hinterior.1, hinterior.2]
    exact ⟨_, Real.sqrt_ne_zero'.mpr hpos, rfl, gives_circleRoot h hpos.le⟩
  | atan | acotan =>
    have hpos : 0 < 1 + v * v := by nlinarith [mul_self_nonneg v]
    exact ⟨_, hpos.ne', rfl, (ensures_oneAndSquare h (.inl rfl)).mono fun _ hs => hs.has⟩
  | asec | acsc =>
    rw [domain, interior_compl_Ioo (by norm_num)] at hinterior
    have habs : 1 < |v| := one_lt_abs hinterior
    have hpos : 0 < v * v - 1 := by nlinarith [abs_mul_abs_self v]
    refine ⟨_, mul_ne_zero ?_ (Real.sqrt_ne_zero'.mpr hpos), rfl, gives_secantRoot h hpos.le⟩
    exact abs_ne_zero.mpr (ne_zero_of_one_lt_abs habs)
  | aexsec =>
    rw [domain, interior_compl_Ioo (by norm_num)] at hinterior
    have hshift : v + 1 ∉ Set.Icc (-1) 1 := fun h =>
      hinterior ⟨by linarith [h.1], by linarith [h.2]⟩
    have habs : 1 < |v + 1| := one_lt_abs hshift
    have hpos : 0 < (v + 1) * (v + 1) - 1 := by nlinarith [abs_mul_abs_self (v + 1)]
    have hplus : Gives Faithful (Has ρ .interior) (Plan.combine .plus t .one) (v + 1) :=
      Gives.plus h IsMeaning.one
    refine ⟨_, mul_ne_zero ?_ (Real.sqrt_ne_zero'.mpr hpos), rfl, hplus.bind fun _ hs =>
      hplus.bind fun _ hs' => (ensures_squareAndOne hs' (.inr rfl)).bind fun _ hr =>
      (gives_sqrt hr hpos.le).bind fun _ hr =>
      Gives.times (hs.of_interior.unary .abs trivial) hr⟩
    exact abs_ne_zero.mpr (ne_zero_of_one_lt_abs habs)
  | avers | acovers =>
    rw [domain, interior_Icc] at hinterior
    have hpos : 0 < 1 - (1 - v) * (1 - v) := by nlinarith [hinterior.1, hinterior.2]
    have hminus : Gives Faithful (Has ρ .interior) (Plan.combine .minus .one t) (1 - v) :=
      Gives.minus IsMeaning.one h
    exact ⟨_, Real.sqrt_ne_zero'.mpr hpos, rfl, hminus.bind fun _ hs =>
      gives_circleRoot hs hpos.le⟩
  | ahav =>
    rw [domain, interior_Icc] at hinterior
    have hpos : 0 < v - v * v := by nlinarith [hinterior.1, hinterior.2]
    exact ⟨_, Real.sqrt_ne_zero'.mpr hpos, rfl,
      (gives_square_of_pos h hinterior.1).bind fun _ hs => (Gives.minus h hs).bind fun _ hs =>
      gives_sqrt (.of_interior hs) hpos.le⟩
  | asinh =>
    have hpos : 0 < v * v + 1 := by nlinarith [mul_self_nonneg v]
    exact ⟨_, Real.sqrt_ne_zero'.mpr hpos, rfl,
      (ensures_squareAndOne h (.inl rfl)).bind fun _ hs => gives_sqrt hs hpos.le⟩
  | acosh =>
    rw [domain, interior_Ici] at hinterior
    have hpos : 0 < v * v - 1 := by nlinarith [Set.mem_Ioi.mp hinterior]
    exact ⟨_, Real.sqrt_ne_zero'.mpr hpos, rfl,
      (ensures_squareAndOne h (.inr rfl)).bind fun _ hs => gives_sqrt hs hpos.le⟩
  | atanh =>
    have hpos : 0 < 1 - v * v := by nlinarith [hmem.1, hmem.2]
    exact ⟨_, hpos.ne', rfl, (ensures_oneAndSquare h (.inr rfl)).mono fun _ hs => hs.has⟩
  | acoth =>
    have hneg : 1 - v * v < 0 := by nlinarith [one_lt_abs hmem, abs_mul_abs_self v]
    exact ⟨_, hneg.ne, rfl, (ensures_oneAndSquare h (.inr rfl)).mono fun _ hs => hs.has⟩
  | asech =>
    rw [domain, interior_Ioc] at hinterior
    have hpos : 0 < 1 - v * v := by nlinarith [hinterior.1, hinterior.2]
    exact ⟨_, mul_ne_zero hinterior.1.ne' (Real.sqrt_ne_zero'.mpr hpos), rfl,
      (gives_circleRoot h hpos.le).bind fun _ hr => Gives.times hd hr⟩
  | acsch =>
    have hpos : 0 < 1 + v * v := by nlinarith [mul_self_nonneg v]
    exact ⟨_, mul_ne_zero (abs_ne_zero.mpr hmem) (Real.sqrt_ne_zero'.mpr hpos), rfl,
      (ensures_oneAndSquare h (.inl rfl)).bind fun _ hs => (gives_sqrt hs hpos.le).bind fun _ hr =>
      Gives.times (hfunction .abs trivial) hr⟩
  | degToRad | degToGrad | radToDeg | radToGrad | gradToDeg | gradToRad =>
    exact ⟨rfl, fun u => mul_comm _ _⟩
  | not | fpart | round | ceil | floor | fac | sfac => exact hmem.elim

/-- The derivative of a function of `t` is that of `t` times the slope of the function. -/
theorem ChainRule.MultipliesBy.gives_apply {rule : ChainRule} {m v' : ℝ}
    (h : rule.MultipliesBy ρ op t m) {derivative : Tree → Plan Tree}
    (ht : Gives Faithful (Has ρ .defined) (derivative t) v') :
    Gives Faithful (Has ρ .defined) (rule.apply op t derivative) (m * v') := by
  cases rule with
  | linear =>
    obtain ⟨hdomain, hreal⟩ := h
    refine ht.bind fun s hs => ?_
    exact IsMeaning.of_eq (hs.unary op (hdomain ▸ trivial)) (hreal v')
  | factor g =>
    exact ht.bind fun _ hdu => (h : Gives _ _ _ _).bind fun _ hg =>
      (Gives.times hdu hg).of_eq (mul_comm _ _)
  | divisor g =>
    obtain ⟨e, he, rfl, hg⟩ := h
    refine ht.bind fun _ hdu => hg.bind fun _ hg =>
      Gives.div (IsMeaning.of_eq hdu ?_) hg he.isUnit
    field_simp
  | negatedDivisor g =>
    obtain ⟨e, he, rfl, hg⟩ := h
    refine ht.bind fun _ hdu => (Gives.opposite hdu).bind fun _ hdu => hg.bind fun _ hg =>
      Gives.div (IsMeaning.of_eq hdu ?_) hg he.isUnit
    field_simp
  | oppositeOfDivisor g =>
    obtain ⟨e, he, rfl, hg⟩ := h
    refine ht.bind fun _ hdu => hg.bind fun _ hg =>
      (Gives.div (w := v' / e) (IsMeaning.of_eq hdu ?_) hg he.isUnit).bind fun _ hs =>
      (Gives.opposite hs).of_eq ?_
    · field_simp
    · field_simp
  | constant | same | none => exact h.elim

end Reckon
