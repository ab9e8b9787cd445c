import Mathlib.Analysis.Calculus.Deriv.Abs
import Mathlib.Analysis.SpecialFunctions.Arcosh
import Mathlib.Analysis.SpecialFunctions.Arsinh
import Mathlib.Analysis.SpecialFunctions.Artanh
import Mathlib.Analysis.SpecialFunctions.Log.Deriv
import Mathlib.Analysis.SpecialFunctions.Sqrt
import Mathlib.Analysis.SpecialFunctions.Trigonometric.ArctanDeriv
import Mathlib.Analysis.SpecialFunctions.Trigonometric.InverseDeriv
import Mathlib.Tactic.FieldSimp
import Mathlib.Tactic.Linarith
import Mathlib.Tactic.Ring
import Reckon.Operator

/-!
# The functions behind the operators

`Unary.real` is the real function that an operator of one operand stands for, `Unary.domain` where
it is defined. Inside the domain its derivative is `Unary.slope` (`Unary.hasDerivAt_real`). The
slopes are written as the rules for derivatives build them.
-/

namespace Reckon

open Real Set
open scoped Topology

/-- As a local instance it is all that the numeral two needs, so definitions with the numeral keep
no proof of their own. -/
theorem atLeastTwo_two : Nat.AtLeastTwo 2 :=
  ⟨le_rfl⟩

namespace Unary

/-- The function that an operator stands for. The cotangent is the quotient of cosine and sine,
which is the reciprocal of the tangent and zero where the tangent has a pole. -/
noncomputable def real : Unary → ℝ → ℝ
  | sin, u => Real.sin u
  | cos, u => Real.cos u
  | tan, u => Real.tan u
  | cotan, u => Real.cos u / Real.sin u
  | sec, u => 1 / Real.cos u
  | csc, u => 1 / Real.sin u
  | exsec, u => 1 / Real.cos u - 1
  | vers, u => 1 - Real.cos u
  | covers, u => 1 - Real.sin u
  | hav, u => (1 - Real.cos u) / 2
  | sinc, u => Real.sin u / u
  | asin, u => arcsin u
  | acos, u => arccos u
  | atan, u => arctan u
  | acotan, u => arctan (1 / u)
  | asec, u => arccos (1 / u)
  | acsc, u => arcsin (1 / u)
  | aexsec, u => arccos (1 / (1 + u))
  | avers, u => arccos (1 - u)
  | acovers, u => arcsin (1 - u)
  | ahav, u => arccos (1 - 2 * u)
  | sinh, u => Real.sinh u
  | cosh, u => Real.cosh u
  | tanh, u => Real.tanh u
  | cotanh, u => 1 / Real.tanh u
  | sech, u => 1 / Real.cosh u
  | csch, u => 1 / Real.sinh u
  | asinh, u => arsinh u
  | acosh, u => arcosh u
  | atanh, u => artanh u
  | acoth, u => artanh (1 / u)
  | asech, u => arcosh (1 / u)
  | acsch, u => arsinh (1 / u)
  | exp, u => Real.exp u
  | ln, u => Real.log u
  | sqrt, u => √u
  | abs, u => |u|
  | degToRad, u => u * (π / 180)
  | degToGrad, u => u * (200 / 180)
  | radToDeg, u => u * (180 / π)
  | radToGrad, u => u * (200 / π)
  | gradToDeg, u => u * (180 / 200)
  | gradToRad, u => u * (π / 200)
  | not, _ | fpart, _ | round, _ | ceil, _ | floor, _ | fac, _ | sfac, _ => 0

/-- Where the function is defined; nowhere for operators that have no derivative of interest. -/
def domain : Unary → Set ℝ
  | tan | sec | exsec => {u | Real.cos u ≠ 0}
  | cotan | csc => {u | Real.sin u ≠ 0}
  | sinc | acotan | cotanh | csch | acsch => {0}ᶜ
  | asin | acos => Icc (-1) 1
  | asec | acsc => (Ioo (-1) 1)ᶜ
  | aexsec => (Ioo (-2) 0)ᶜ
  | avers | acovers => Icc 0 2
  | ahav => Icc 0 1
  | acosh => Ici 1
  | atanh => Ioo (-1) 1
  | acoth => (Icc (-1) 1)ᶜ
  | asech => Ioc 0 1
  | ln => Ioi 0
  | sqrt => Ici 0
  | not | fpart | round | ceil | floor | fac | sfac => ∅
  | _ => univ

/-- Inside the domain; the absolute value has a kink at zero. -/
def IsInteriorAt (op : Unary) (u : ℝ) : Prop :=
  u ∈ interior op.domain ∧ (op = abs → u ≠ 0)

/-- The derivative of the function. -/
noncomputable def slope : Unary → ℝ → ℝ
  | sin, u => Real.cos u
  | cos, u => -Real.sin u
  | tan, u => 1 + Real.tan u * Real.tan u
  | cotan, u => -1 - cotan.real u * cotan.real u
  | sec, u | exsec, u => sec.real u * Real.tan u
  | csc, u => -(csc.real u * cotan.real u)
  | vers, u => Real.sin u
  | covers, u => -Real.cos u
  | hav, u => Real.sin u / 2
  | sinc, u => (u * Real.cos u - Real.sin u) / (u * u)
  | asin, u => 1 / √(1 - u * u)
  | acos, u => -(1 / √(1 - u * u))
  | atan, u => 1 / (1 + u * u)
  | acotan, u => -(1 / (1 + u * u))
  | asec, u => 1 / (|u| * √(u * u - 1))
  | acsc, u => -(1 / (|u| * √(u * u - 1)))
  | aexsec, u => 1 / (|u + 1| * √((u + 1) * (u + 1) - 1))
  | avers, u => 1 / √(1 - (1 - u) * (1 - u))
  | acovers, u => -(1 / √(1 - (1 - u) * (1 - u)))
  | ahav, u => 1 / √(u - u * u)
  | sinh, u => Real.cosh u
  | cosh, u => Real.sinh u
  | tanh, u => 1 - Real.tanh u * Real.tanh u
  | cotanh, u => 1 - cotanh.real u * cotanh.real u
  | sech, u => -(sech.real u * Real.tanh u)
  | csch, u => -(csch.real u * cotanh.real u)
  | asinh, u => 1 / √(u * u + 1)
  | acosh, u => 1 / √(u * u - 1)
  | atanh, u | acoth, u => 1 / (1 - u * u)
  | asech, u => -(1 / (u * √(1 - u * u)))
  | acsch, u => -(1 / (|u| * √(1 + u * u)))
  | exp, u => Real.exp u
  | ln, u => 1 / u
  | sqrt, u => 1 / (2 * √u)
  | abs, u => u / |u|
  | degToRad, _ => π / 180
  | degToGrad, _ => 200 / 180
  | radToDeg, _ => 180 / π
  | radToGrad, _ => 200 / π
  | gradToDeg, _ => 180 / 200
  | gradToRad, _ => π / 200
  | not, _ | fpart, _ | round, _ | ceil, _ | floor, _ | fac, _ | sfac, _ => 0

end Unary

variable {u : ℝ}

/-! ### Reciprocals -/

/-- The slope of the reciprocal of a function. -/
theorem hasDerivAt_one_div_comp {f : ℝ → ℝ} {f' : ℝ} (hf : HasDerivAt f f' u) (hu : f u ≠ 0) :
    HasDerivAt (fun x => 1 / f x) (-(1 / f u * (f' / f u))) u := by
  refine ((hasDerivAt_const u (1 : ℝ)).fun_div hf hu).congr_deriv ?_
  field_simp
  ring

/-- The slope of a function of the reciprocal. -/
theorem hasDerivAt_comp_one_div {f : ℝ → ℝ} {f' : ℝ} (hf : HasDerivAt f f' (1 / u)) (hu : u ≠ 0) :
    HasDerivAt (fun x => f (1 / x)) (-(f' / u ^ 2)) u := by
  refine (hf.comp u ((hasDerivAt_const u (1 : ℝ)).fun_div (hasDerivAt_id u) hu)).congr_deriv ?_
  ring

theorem one_lt_abs (h : u ∉ Icc (-1) 1) : 1 < |u| := by
  by_contra hle
  exact h (abs_le.mp (not_lt.mp hle))

theorem ne_zero_of_one_lt_abs (h : 1 < |u|) : u ≠ 0 :=
  abs_pos.mp (by linarith)

theorem one_div_mem (h : 1 < |u|) : 1 / u ∈ Ioo (-1) 1 := by
  have habs : |1 / u| < 1 := by
    rw [abs_div, abs_one]
    exact (div_lt_one (by linarith)).mpr h
  exact abs_lt.mp habs

/-! ### Circular functions -/

theorem hasDerivAt_tan_square (h : cos u ≠ 0) : HasDerivAt tan (1 + tan u * tan u) u := by
  refine (hasDerivAt_tan h).congr_deriv ?_
  rw [tan_eq_sin_div_cos]
  field_simp
  exact (cos_sq_add_sin_sq u).symm

theorem hasDerivAt_cos_div_sin (h : sin u ≠ 0) :
    HasDerivAt (fun x => cos x / sin x) (-1 - cos u / sin u * (cos u / sin u)) u := by
  refine ((hasDerivAt_cos u).fun_div (hasDerivAt_sin u) h).congr_deriv ?_
  field_simp

theorem hasDerivAt_one_div_cos (h : cos u ≠ 0) :
    HasDerivAt (fun x => 1 / cos x) (1 / cos u * tan u) u := by
  refine (hasDerivAt_one_div_comp (hasDerivAt_cos u) h).congr_deriv ?_
  rw [tan_eq_sin_div_cos]
  ring

theorem hasDerivAt_sin_div (h : u ≠ 0) :
    HasDerivAt (fun x => sin x / x) ((u * cos u - sin u) / (u * u)) u := by
  refine ((hasDerivAt_sin u).fun_div (hasDerivAt_id u) h).congr_deriv ?_
  simp only [id]
  ring

/-! ### Inverse circular functions -/

theorem hasDerivAt_arcsin_square (h : u ∈ Ioo (-1) 1) :
    HasDerivAt arcsin (1 / √(1 - u * u)) u :=
  (hasDerivAt_arcsin h.1.ne' h.2.ne).congr_deriv (by rw [pow_two])

theorem hasDerivAt_arccos_square (h : u ∈ Ioo (-1) 1) :
    HasDerivAt arccos (-(1 / √(1 - u * u))) u :=
  (hasDerivAt_arccos h.1.ne' h.2.ne).congr_deriv (by rw [pow_two])

theorem hasDerivAt_arctan_one_div (h : u ≠ 0) :
    HasDerivAt (fun x => arctan (1 / x)) (-(1 / (1 + u * u))) u := by
  refine (hasDerivAt_comp_one_div (hasDerivAt_arctan _) h).congr_deriv ?_
  field_simp
  ring

/-- The square root that comes with the reciprocal. -/
theorem sq_mul_sqrt (h : 1 < |u|) : u ^ 2 * √(1 - 1 / u * (1 / u)) = |u| * √(u * u - 1) := by
  have hu : u ≠ 0 := ne_zero_of_one_lt_abs h
  have hsplit : 1 - 1 / u * (1 / u) = (u * u - 1) / u ^ 2 := by
    field_simp
  rw [hsplit, sqrt_div' _ (sq_nonneg u), sqrt_sq_eq_abs, ← sq_abs u]
  have : |u| ≠ 0 := abs_ne_zero.mpr hu
  field_simp

theorem hasDerivAt_arccos_one_div (h : 1 < |u|) :
    HasDerivAt (fun x => arccos (1 / x)) (1 / (|u| * √(u * u - 1))) u := by
  refine (hasDerivAt_comp_one_div (hasDerivAt_arccos_square (one_div_mem h))
    (ne_zero_of_one_lt_abs h)).congr_deriv ?_
  rw [← sq_mul_sqrt h]
  ring

theorem hasDerivAt_arcsin_one_div (h : 1 < |u|) :
    HasDerivAt (fun x => arcsin (1 / x)) (-(1 / (|u| * √(u * u - 1)))) u := by
  refine (hasDerivAt_comp_one_div (hasDerivAt_arcsin_square (one_div_mem h))
    (ne_zero_of_one_lt_abs h)).congr_deriv ?_
  rw [← sq_mul_sqrt h]
  ring

theorem hasDerivAt_arccos_one_sub (h : u ∈ Ioo 0 2) :
    HasDerivAt (fun x => arccos (1 - x)) (1 / √(1 - (1 - u) * (1 - u))) u := by
  have hmem : 1 - u ∈ Ioo (-1) 1 := ⟨by linarith [h.2], by linarith [h.1]⟩
  exact ((hasDerivAt_arccos_square hmem).comp u ((hasDerivAt_id u).const_sub 1)).congr_deriv
    (by ring)

theorem hasDerivAt_arcsin_one_sub (h : u ∈ Ioo 0 2) :
    HasDerivAt (fun x => arcsin (1 - x)) (-(1 / √(1 - (1 - u) * (1 - u)))) u := by
  have hmem : 1 - u ∈ Ioo (-1) 1 := ⟨by linarith [h.2], by linarith [h.1]⟩
  exact ((hasDerivAt_arcsin_square hmem).comp u ((hasDerivAt_id u).const_sub 1)).congr_deriv
    (by ring)

theorem hasDerivAt_arccos_one_sub_two_mul (h : u ∈ Ioo 0 1) :
    HasDerivAt (fun x => arccos (1 - 2 * x)) (1 / √(u - u * u)) u := by
  have hmem : 1 - 2 * u ∈ Ioo (-1) 1 := ⟨by linarith [h.2], by linarith [h.1]⟩
  refine ((hasDerivAt_arccos_square hmem).comp u
    (((hasDerivAt_id u).const_mul 2).const_sub 1)).congr_deriv ?_
  have hroot : √(1 - (1 - 2 * u) * (1 - 2 * u)) = 2 * √(u - u * u) := by
    rw [show 1 - (1 - 2 * u) * (1 - 2 * u) = 2 ^ 2 * (u - u * u) by ring, sqrt_mul (by norm_num),
      sqrt_sq (by norm_num)]
  rw [hroot]
  ring

/-! ### Hyperbolic functions -/

theorem hasDerivAt_tanh (u : ℝ) : HasDerivAt tanh (1 - tanh u * tanh u) u := by
  have heq : tanh = fun x => sinh x / cosh x := funext tanh_eq_sinh_div_cosh
  rw [heq]
  refine ((hasDerivAt_sinh u).fun_div (hasDerivAt_cosh u) (cosh_pos u).ne').congr_deriv ?_
  have := (cosh_pos u).ne'
  field_simp

theorem hasDerivAt_one_div_tanh (h : u ≠ 0) :
    HasDerivAt (fun x => 1 / tanh x) (1 - 1 / tanh u * (1 / tanh u)) u := by
  have htanh : tanh u ≠ 0 := by
    rw [tanh_eq_sinh_div_cosh]
    exact div_ne_zero (sinh_ne_zero.mpr h) (cosh_pos u).ne'
  refine (hasDerivAt_one_div_comp (hasDerivAt_tanh u) htanh).congr_deriv ?_
  field_simp
  ring

theorem hasDerivAt_one_div_cosh (u : ℝ) :
    HasDerivAt (fun x => 1 / cosh x) (-(1 / cosh u * tanh u)) u := by
  refine (hasDerivAt_one_div_comp (hasDerivAt_cosh u) (cosh_pos u).ne').congr_deriv ?_
  rw [tanh_eq_sinh_div_cosh]

theorem hasDerivAt_one_div_sinh (h : u ≠ 0) :
    HasDerivAt (fun x => 1 / sinh x) (-(1 / sinh u * (1 / tanh u))) u := by
  refine (hasDerivAt_one_div_comp (hasDerivAt_sinh u) (sinh_ne_zero.mpr h)).congr_deriv ?_
  rw [tanh_eq_sinh_div_cosh, one_div_div]

/-! ### Inverse hyperbolic functions -/

theorem hasDerivAt_artanh (h : u ∈ Ioo (-1) 1) : HasDerivAt artanh (1 / (1 - u * u)) u := by
  have hplus : 0 < 1 + u := by linarith [h.1]
  have hminus : 0 < 1 - u := by linarith [h.2]
  have hquotient : HasDerivAt (fun x => (1 + x) / (1 - x)) (2 / (1 - u) ^ 2) u := by
    refine (((hasDerivAt_id u).const_add 1).fun_div ((hasDerivAt_id u).const_sub 1)
      hminus.ne').congr_deriv ?_
    simp only [id]
    ring
  have heq : artanh =ᶠ[𝓝 u] fun x => 1 / 2 * log ((1 + x) / (1 - x)) := by
    filter_upwards [isOpen_Ioo.mem_nhds h] with x hx
    exact artanh_eq_half_log (Ioo_subset_Icc_self hx)
  refine (((hquotient.log (div_pos hplus hminus).ne').const_mul
    (1 / 2)).congr_of_eventuallyEq heq).congr_deriv ?_
  rw [show 1 - u * u = (1 + u) * (1 - u) by ring]
  field_simp

theorem hasDerivAt_artanh_one_div (h : 1 < |u|) :
    HasDerivAt (fun x => artanh (1 / x)) (1 / (1 - u * u)) u := by
  have hu : u ≠ 0 := ne_zero_of_one_lt_abs h
  have hsquare : u * u - 1 ≠ 0 := by nlinarith [abs_mul_abs_self u]
  refine (hasDerivAt_comp_one_div (hasDerivAt_artanh (one_div_mem h)) hu).congr_deriv ?_
  have hsplit : 1 - 1 / u * (1 / u) = (u * u - 1) / u ^ 2 := by
    field_simp
  rw [hsplit, ← neg_sub (u * u)]
  field_simp

theorem hasDerivAt_arcosh_one_div (h : u ∈ Ioo 0 1) :
    HasDerivAt (fun x => arcosh (1 / x)) (-(1 / (u * √(1 - u * u)))) u := by
  have hu : u ≠ 0 := h.1.ne'
  have hmem : 1 / u ∈ Ioi 1 := (one_lt_div h.1).mpr h.2
  refine (hasDerivAt_comp_one_div (hasDerivAt_arcosh hmem) hu).congr_deriv ?_
  have hsplit : (1 / u) ^ 2 - 1 = (1 - u * u) / u ^ 2 := by
    field_simp
  rw [hsplit, sqrt_div' _ (sq_nonneg u), sqrt_sq h.1.le]
  field_simp

theorem hasDerivAt_arsinh_one_div (h : u ≠ 0) :
    HasDerivAt (fun x => arsinh (1 / x)) (-(1 / (|u| * √(1 + u * u)))) u := by
  refine (hasDerivAt_comp_one_div (hasDerivAt_arsinh _) h).congr_deriv ?_
  have hsplit : 1 + (1 / u) ^ 2 = (1 + u * u) / u ^ 2 := by
    field_simp
    ring
  have := abs_ne_zero.mpr h
  rw [hsplit, sqrt_div' _ (sq_nonneg u), sqrt_sq_eq_abs, ← sq_abs u]
  field_simp

/-! ### Inside the domains -/

theorem interior_compl_Ioo {a b : ℝ} (h : a < b) : interior (Ioo a b)ᶜ = (Icc a b)ᶜ := by
  rw [interior_compl, closure_Ioo h.ne]

namespace Unary

theorem hasDerivAt_real {op : Unary} (h : op.IsInteriorAt u) :
    HasDerivAt op.real (op.slope u) u := by
  obtain ⟨hu, hkink⟩ := h
  have hmem : u ∈ op.domain := interior_subset hu
  cases op with
  | sin => exact Real.hasDerivAt_sin u
  | cos => exact Real.hasDerivAt_cos u
  | tan => exact hasDerivAt_tan_square hmem
  | cotan => exact hasDerivAt_cos_div_sin hmem
  | sec => exact hasDerivAt_one_div_cos hmem
  | csc => exact hasDerivAt_one_div_comp (Real.hasDerivAt_sin u) hmem
  | exsec => exact (hasDerivAt_one_div_cos hmem).sub_const 1
  | vers => exact ((Real.hasDerivAt_cos u).const_sub 1).congr_deriv (neg_neg _)
  | covers => exact (Real.hasDerivAt_sin u).const_sub 1
  | hav =>
    exact (((Real.hasDerivAt_cos u).const_sub 1).div_const 2).congr_deriv (by rw [neg_neg]; rfl)
  | sinc => exact hasDerivAt_sin_div hmem
  | asin => exact hasDerivAt_arcsin_square (by rwa [domain, interior_Icc] at hu)
  | acos => exact hasDerivAt_arccos_square (by rwa [domain, interior_Icc] at hu)
  | atan => exact (Real.hasDerivAt_arctan u).congr_deriv (by rw [pow_two]; rfl)
  | acotan => exact hasDerivAt_arctan_one_div hmem
  | asec =>
    rw [domain, interior_compl_Ioo (by norm_num)] at hu
    exact hasDerivAt_arccos_one_div (one_lt_abs hu)
  | acsc =>
    rw [domain, interior_compl_Ioo (by norm_num)] at hu
    exact hasDerivAt_arcsin_one_div (one_lt_abs hu)
  | aexsec =>
    rw [domain, interior_compl_Ioo (by norm_num)] at hu
    have hshift : u + 1 ∉ Icc (-1) 1 := fun h => hu ⟨by linarith [h.1], by linarith [h.2]⟩
    have hreal : aexsec.real = fun x => arccos (1 / (x + 1)) := by
      funext x
      rw [real, add_comm]
    rw [hreal]
    exact (hasDerivAt_arccos_one_div (one_lt_abs hshift)).comp_add_const u 1
  | avers => exact hasDerivAt_arccos_one_sub (by rwa [domain, interior_Icc] at hu)
  | acovers => exact hasDerivAt_arcsin_one_sub (by rwa [domain, interior_Icc] at hu)
  | ahav => exact hasDerivAt_arccos_one_sub_two_mul (by rwa [domain, interior_Icc] at hu)
  | sinh => exact Real.hasDerivAt_sinh u
  | cosh => exact Real.hasDerivAt_cosh u
  | tanh => exact hasDerivAt_tanh u
  | cotanh => exact hasDerivAt_one_div_tanh hmem
  | sech => exact hasDerivAt_one_div_cosh u
  | csch => exact hasDerivAt_one_div_sinh hmem
  | asinh =>
    exact (Real.hasDerivAt_arsinh u).congr_deriv (by rw [slope, pow_two, add_comm, one_div])
  | acosh =>
    rw [domain, interior_Ici] at hu
    exact (Real.hasDerivAt_arcosh hu).congr_deriv (by rw [slope, pow_two, one_div])
  | atanh => exact hasDerivAt_artanh hmem
  | acoth => exact hasDerivAt_artanh_one_div (one_lt_abs hmem)
  | asech => exact hasDerivAt_arcosh_one_div (by rwa [domain, interior_Ioc] at hu)
  | acsch => exact hasDerivAt_arsinh_one_div hmem
  | exp => exact Real.hasDerivAt_exp u
  | ln => exact (Real.hasDerivAt_log (ne_of_gt hmem)).congr_deriv (one_div u).symm
  | sqrt =>
    rw [domain, interior_Ici] at hu
    exact Real.hasDerivAt_sqrt (ne_of_gt hu)
  | abs =>
    refine (hasDerivAt_abs (hkink rfl)).congr_deriv ?_
    rw [slope, eq_div_iff (abs_ne_zero.mpr (hkink rfl)), sign_mul_abs]
  | degToRad | degToGrad | radToDeg | radToGrad | gradToDeg | gradToRad =>
    exact ((hasDerivAt_id u).mul_const _).congr_deriv (one_mul _)
  | not | fpart | round | ceil | floor | fac | sfac => exact absurd hmem (Set.notMem_empty u)

end Unary

end Reckon
