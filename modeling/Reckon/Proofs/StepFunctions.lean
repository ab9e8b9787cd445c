import Mathlib.Algebra.Order.Floor.Ring
import Reckon.Proofs.RealReading
import Reckon.Proofs.RealSlopes

/-!
# Functions with steps

The absolute value, the functions that round and the remainder are differentiable off their kinks
and jumps (`Unary.hasDerivAt_steps`, `hasDerivAt_remainder`). `Tree.steps` is the value of a tree of
these and of the four basic operations. Where the tree is off all kinks and jumps (`Tree.IsSmooth`)
that is its real value, and it stays so when a variable moves a little, with a slope
(`Tree.IsSmooth.eventually`).
-/

namespace Reckon

open Reckon.Tree (number var unary binary)
open scoped Topology

attribute [local instance] atLeastTwo_two

variable {u : ℝ}

/-! ### Rounding -/

/-- The number without its fractional part. -/
noncomputable def integerPart (u : ℝ) : ℤ :=
  if 0 ≤ u then ⌊u⌋ else ⌈u⌉

/-- What is none of some integers is none of them around a point. -/
theorem eventually_ne_intCast {S : Set ℤ} (h : ∀ k ∈ S, u ≠ k) :
    ∀ᶠ y in 𝓝 u, ∀ k ∈ S, y ≠ (k : ℝ) := by
  have hclosed : IsClosed ((fun k : ℤ => (k : ℝ)) '' S) :=
    Int.isClosedEmbedding_coe_real.isClosedMap S (isClosed_discrete S)
  have hmem : u ∈ ((fun k : ℤ => (k : ℝ)) '' S)ᶜ := by
    rintro ⟨k, hk, rfl⟩
    exact h k hk rfl
  filter_upwards [hclosed.isOpen_compl.mem_nhds hmem] with y hy
  rintro k hk rfl
  exact hy ⟨k, hk, rfl⟩

/-- Off the integers the floor is constant around a point. -/
theorem eventually_floor (h : ∀ k : ℤ, u ≠ k) : ∀ᶠ y in 𝓝 u, ⌊y⌋ = ⌊u⌋ := by
  have hlt : (⌊u⌋ : ℝ) < u := (Int.floor_le u).lt_of_ne (h ⌊u⌋).symm
  filter_upwards [isOpen_Ioo.mem_nhds ⟨hlt, Int.lt_floor_add_one u⟩] with y hy
  exact Int.floor_eq_iff.mpr ⟨hy.1.le, hy.2⟩

theorem eventually_ceil (h : ∀ k : ℤ, u ≠ k) : ∀ᶠ y in 𝓝 u, ⌈y⌉ = ⌈u⌉ := by
  have hlt : u < ⌈u⌉ := (Int.le_ceil u).lt_of_ne (h ⌈u⌉)
  have hgt : (⌈u⌉ : ℝ) - 1 < u := by linarith [Int.ceil_lt_add_one u]
  filter_upwards [isOpen_Ioo.mem_nhds ⟨hgt, hlt⟩] with y hy
  exact Int.ceil_eq_iff.mpr ⟨hy.1, hy.2.le⟩

/-- The integer part does not jump at zero. -/
theorem eventually_integerPart (h : ∀ k : ℤ, k ≠ 0 → u ≠ k) :
    ∀ᶠ y in 𝓝 u, integerPart y = integerPart u := by
  rcases lt_trichotomy u 0 with hneg | rfl | hpos
  · have hint : ∀ k : ℤ, u ≠ k := by
      rintro k rfl
      exact h k (by rintro rfl; simp at hneg) rfl
    filter_upwards [eventually_ceil hint, gt_mem_nhds hneg] with y hy hlt
    rw [integerPart, integerPart, if_neg hlt.not_ge, if_neg hneg.not_ge, hy]
  · filter_upwards [isOpen_Ioo.mem_nhds (show (0 : ℝ) ∈ Set.Ioo (-1) 1 by norm_num)] with y hy
    rw [integerPart, integerPart, if_pos le_rfl, Int.floor_zero]
    split
    · exact Int.floor_eq_zero_iff.mpr ⟨‹_›, hy.2⟩
    · exact Int.ceil_eq_zero_iff.mpr ⟨hy.1, by linarith⟩
  · have hint : ∀ k : ℤ, u ≠ k := by
      rintro k rfl
      exact h k (by rintro rfl; simp at hpos) rfl
    filter_upwards [eventually_floor hint, lt_mem_nhds hpos] with y hy hlt
    rw [integerPart, integerPart, if_pos hlt.le, if_pos hpos.le, hy]

/-! ### Operators -/

namespace Unary

/-- The function that an operator stands for. -/
noncomputable def steps : Unary → ℝ → ℝ
  | abs, u => |u|
  | floor, u => ⌊u⌋
  | ceil, u => ⌈u⌉
  | round, u => ⌊u + 1 / 2⌋
  | fpart, u => u - integerPart u
  | _, _ => 0

/-- Off the kink or the jumps; nowhere for other operators. -/
def IsSmoothAt : Unary → ℝ → Prop
  | abs, u => u ≠ 0
  | floor, u | ceil, u => ∀ k : ℤ, u ≠ k
  | round, u => ∀ k : ℤ, u + 1 / 2 ≠ k
  | fpart, u => ∀ k : ℤ, k ≠ 0 → u ≠ k
  | _, _ => False

theorem IsSmoothAt.eventually {op : Unary} (h : op.IsSmoothAt u) :
    ∀ᶠ y in 𝓝 u, op.IsSmoothAt y := by
  have hint {y : ℝ} (hy : ∀ k : ℤ, y ≠ k) : ∀ᶠ z in 𝓝 y, ∀ k : ℤ, z ≠ (k : ℝ) := by
    simpa using eventually_ne_intCast (S := Set.univ) fun k _ => hy k
  cases op with
  | abs => exact isOpen_ne.mem_nhds h
  | floor | ceil => exact hint h
  | round => exact (continuous_add_const (1 / 2 : ℝ)).continuousAt.eventually (hint h)
  | fpart => exact eventually_ne_intCast (S := {0}ᶜ) h
  | _ => exact h.elim

/-- The slope of the function. -/
noncomputable def rate : Unary → ℝ → ℝ
  | abs, u => u / |u|
  | fpart, _ => 1
  | _, _ => 0

theorem hasDerivAt_steps {op : Unary} (h : op.IsSmoothAt u) :
    HasDerivAt op.steps (op.rate u) u := by
  cases op with
  | abs =>
    refine (hasDerivAt_abs h).congr_deriv ?_
    rw [rate, eq_div_iff (abs_ne_zero.mpr h), sign_mul_abs]
  | floor =>
    refine (hasDerivAt_const u (⌊u⌋ : ℝ)).congr_of_eventuallyEq ?_
    exact (eventually_floor h).mono fun y hy => by rw [steps, hy]
  | ceil =>
    refine (hasDerivAt_const u (⌈u⌉ : ℝ)).congr_of_eventuallyEq ?_
    exact (eventually_ceil h).mono fun y hy => by rw [steps, hy]
  | round =>
    refine (hasDerivAt_const u (⌊u + 1 / 2⌋ : ℝ)).congr_of_eventuallyEq ?_
    have hshift : Filter.Tendsto (fun y => y + 1 / 2) (𝓝 u) (𝓝 (u + 1 / 2)) :=
      (continuous_add_const (1 / 2 : ℝ)).continuousAt
    exact (hshift.eventually (eventually_floor h)).mono fun y hy => by rw [steps, hy]
  | fpart =>
    refine ((hasDerivAt_id u).sub_const (integerPart u : ℝ)).congr_of_eventuallyEq ?_
    exact (eventually_integerPart h).mono fun y hy => by rw [steps, hy]; rfl
  | _ => exact h.elim

end Unary

namespace Binary

/-- The function that an operator stands for. A remainder has the sign of the dividend. -/
noncomputable def steps : Binary → ℝ → ℝ → ℝ
  | plus, u, v => u + v
  | minus, u, v => u - v
  | times, u, v => u * v
  | div, u, v => u / v
  | modulo, u, v => u - v * integerPart (u / v)
  | _, _, _ => 0

/-- Off the jumps; nowhere for other operators. -/
def IsSmoothAt : Binary → ℝ → ℝ → Prop
  | plus, _, _ | minus, _, _ | times, _, _ => True
  | div, _, v => v ≠ 0
  | modulo, u, v => v ≠ 0 ∧ ∀ k : ℤ, k ≠ 0 → u / v ≠ k
  | _, _, _ => False

end Binary

/-- The slope of the remainder of two functions. -/
theorem hasDerivAt_remainder {f g : ℝ → ℝ} {f' g' s : ℝ} (hf : HasDerivAt f f' s)
    (hg : HasDerivAt g g' s) (h : Binary.modulo.IsSmoothAt (f s) (g s)) :
    HasDerivAt (fun r => Binary.modulo.steps (f r) (g r))
      (f' - g' * integerPart (f s / g s)) s := by
  refine (hf.fun_sub (hg.mul_const (integerPart (f s / g s) : ℝ))).congr_of_eventuallyEq ?_
  have hquotient : ContinuousAt (fun r => f r / g r) s :=
    hf.continuousAt.div hg.continuousAt h.1
  filter_upwards [hquotient.eventually (eventually_integerPart h.2)] with r hr
  rw [Binary.steps, hr]

/-! ### Trees -/

/-- What the operators with steps stand for. -/
noncomputable def RealInterpretation.steps : RealInterpretation where
  unary op u := some (op.steps u)
  binary op u v := if v = 0 then none else some (op.steps u v)

namespace Tree

/-- The value of a tree of functions with steps; off its domain it means nothing. -/
noncomputable def steps (ρ : String → ℝ) : Tree → ℝ
  | number a => (a.toRat?.getD 0 : ℚ)
  | var x => ρ x
  | unary op a => op.steps (a.steps ρ)
  | binary op a b => op.steps (a.steps ρ) (b.steps ρ)

/-- Every operand is off the kinks and jumps of its operator. -/
def IsSmooth (ρ : String → ℝ) : Tree → Prop
  | number a => a.toRat?.isSome
  | var _ => True
  | unary op a => a.IsSmooth ρ ∧ op.IsSmoothAt (a.steps ρ)
  | binary op a b => a.IsSmooth ρ ∧ b.IsSmooth ρ ∧ op.IsSmoothAt (a.steps ρ) (b.steps ρ)

variable {ρ : String → ℝ} {t : Tree}

theorem IsSmooth.real?_eq (h : t.IsSmooth ρ) : t.real? .steps ρ = some (t.steps ρ) := by
  induction t with
  | number a =>
    obtain ⟨q, hq⟩ := Option.isSome_iff_exists.mp h
    simp [real?, steps, hq]
  | var x => rfl
  | unary op a ih =>
    rw [real?, ih h.1]
    cases op with
    | abs | floor | ceil | round | fpart => rfl
    | _ => exact h.2.elim
  | binary op a b iha ihb =>
    rw [real?, iha h.1, ihb h.2.1]
    cases op with
    | plus | minus | times => simp [steps, Binary.steps]
    | div =>
      have hne : b.steps ρ ≠ 0 := h.2.2
      exact Binary.real?_div_iff (I := .steps).mpr ⟨hne, div_mul_cancel₀ (a.steps ρ) hne⟩
    | modulo => exact if_neg h.2.2.1
    | _ => exact h.2.2.elim

variable {x : String} {s : ℝ}

/-- Off kinks and jumps a tree stays so when the variable moves a little, and its value is
differentiable. -/
theorem IsSmooth.eventually (h : t.IsSmooth (moved x ρ s)) :
    (∀ᶠ r in 𝓝 s, t.IsSmooth (moved x ρ r)) ∧
      DifferentiableAt ℝ (fun r => t.steps (moved x ρ r)) s := by
  induction t with
  | number a => exact ⟨.of_forall fun r => h, differentiableAt_const _⟩
  | var y => exact ⟨.of_forall fun r => trivial, (hasDerivAt_moved y).differentiableAt⟩
  | unary op a ih =>
    obtain ⟨hnear, hdiff⟩ := ih h.1
    refine ⟨?_, (Unary.hasDerivAt_steps h.2).differentiableAt.comp s hdiff⟩
    exact hnear.and (hdiff.continuousAt.eventually h.2.eventually)
  | binary op a b iha ihb =>
    obtain ⟨hneara, hdiffa⟩ := iha h.1
    obtain ⟨hnearb, hdiffb⟩ := ihb h.2.1
    cases op with
    | plus =>
      exact ⟨hneara.and (hnearb.mono fun r hb => ⟨hb, trivial⟩), hdiffa.add hdiffb⟩
    | minus =>
      exact ⟨hneara.and (hnearb.mono fun r hb => ⟨hb, trivial⟩), hdiffa.sub hdiffb⟩
    | times =>
      exact ⟨hneara.and (hnearb.mono fun r hb => ⟨hb, trivial⟩), hdiffa.mul hdiffb⟩
    | div =>
      have hne : b.steps (moved x ρ s) ≠ 0 := h.2.2
      exact ⟨hneara.and (hnearb.and (hdiffb.continuousAt.eventually_ne hne)),
        hdiffa.fun_div hdiffb hne⟩
    | modulo =>
      refine ⟨hneara.and (hnearb.and ((hdiffb.continuousAt.eventually_ne h.2.2.1).and ?_)),
        (hasDerivAt_remainder hdiffa.hasDerivAt hdiffb.hasDerivAt h.2.2).differentiableAt⟩
      exact (hdiffa.continuousAt.div hdiffb.continuousAt h.2.2.1).eventually
        (eventually_ne_intCast (S := {0}ᶜ) h.2.2.2)
    | _ => exact h.2.2.elim

end Tree

end Reckon
