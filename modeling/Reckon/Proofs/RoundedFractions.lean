import Mathlib.Algebra.Order.Floor.Semiring
import Mathlib.Data.Rat.Floor
import Reckon.Proofs.AlikeFractions

/-!
# Fractions rounded to natural numbers

`Rounding.nearby` rounds a number that is not negative to a natural number. It is monotone at the
natural numbers (`le_nearby`, `nearby_le`), at most half a unit off when it goes to the nearest
(`IsNearest.abs_nearby_sub_le`), and depends on nothing but which two halves the number lies
between (`quotient_eq_of_halves`).
-/

namespace Reckon

namespace Rounding
variable {r : Rounding} {negative : Bool}

/-- Half a unit decides. -/
def IsNearest (r : Rounding) : Prop :=
  r = .halfEven ∨ r = .halfUp

/-! ### Quotients -/

theorem div_le_quotient (r : Rounding) (negative : Bool) (n d : Nat) :
    n / d ≤ r.quotient negative n d := by
  cases r with
  | _ =>
    simp only [quotient]
    split_ifs <;> omega

theorem quotient_le_add_one (r : Rounding) (negative : Bool) (n d : Nat) :
    r.quotient negative n d ≤ n / d + 1 := by
  cases r with
  | _ =>
    simp only [quotient]
    split_ifs <;> omega

theorem quotient_of_mod_eq_zero {n d : Nat} (h : n % d = 0) : r.quotient negative n d = n / d := by
  simp only [quotient, h, ↓reduceIte]

/-- Twice the distance from the quotient is at most the divisor. -/
theorem IsNearest.quotient_spec (hr : r.IsNearest) (negative : Bool) {n d : Nat} (hd : 0 < d) :
    2 * (r.quotient negative n d * d) ≤ 2 * n + d ∧
      2 * n ≤ 2 * (r.quotient negative n d * d) + d := by
  have hsplit : n / d * d + n % d = n := Nat.div_add_mod' n d
  have hrest : n % d < d := Nat.mod_lt n hd
  have hnext : (n / d + 1) * d = n / d * d + d := Nat.add_one_mul _ _
  rcases hr with rfl | rfl
  · simp only [quotient]
    split_ifs <;> omega
  · simp only [quotient]
    split_ifs <;> omega

/-- A quotient that is no integer depends on its integer part and on which half of the unit behind
it it lies in. -/
theorem quotient_eq_of_halves {n d n' d' : Nat} (hd : 0 < d) (hd' : 0 < d')
    (h : 2 * n / d = 2 * n' / d') (hn : 2 * n % d ≠ 0) (hn' : 2 * n' % d' ≠ 0) :
    r.quotient negative n d = r.quotient negative n' d' := by
  have hhalves : ∀ {n d : Nat}, 0 < d → 2 * n % d ≠ 0 →
      n / d = 2 * n / d / 2 ∧ n % d ≠ 0 ∧ 2 * (n % d) ≠ d ∧
        (2 * (n % d) < d ↔ 2 * n / d % 2 = 0) := by
    intro n d hd hn
    have hsplit : 2 * n = d * (2 * (n / d)) + 2 * (n % d) := by
      have := Nat.div_add_mod n d
      linarith
    have hrest : n % d < d := Nat.mod_lt n hd
    have hdiv : 2 * n / d = 2 * (n / d) + 2 * (n % d) / d := by
      rw [hsplit, Nat.mul_add_div hd]
    have hmod : 2 * n % d = 2 * (n % d) % d := by
      rw [hsplit, Nat.mul_add_mod]
    have hzero : n % d ≠ 0 := by
      intro hzero
      rw [hzero] at hmod
      exact hn (by simpa using hmod)
    have hhalf : 2 * (n % d) ≠ d := by
      intro hhalf
      rw [hhalf, Nat.mod_self] at hmod
      exact hn hmod
    rcases Nat.lt_or_ge (2 * (n % d)) d with hlt | hge
    · rw [Nat.div_eq_of_lt hlt] at hdiv
      omega
    · have hone : 2 * (n % d) / d = 1 := by
        rw [Nat.div_eq_iff hd]
        omega
      omega
  obtain ⟨hdiv, hzero, hne, hlt⟩ := hhalves hd hn
  obtain ⟨hdiv', hzero', hne', hlt'⟩ := hhalves hd' hn'
  have hle : d ≤ 2 * (n % d) ↔ ¬ 2 * (n % d) < d := by omega
  have hle' : d' ≤ 2 * (n' % d') ↔ ¬ 2 * (n' % d') < d' := by omega
  have hgt : d < 2 * (n % d) ↔ ¬ 2 * (n % d) < d := by omega
  have hgt' : d' < 2 * (n' % d') ↔ ¬ 2 * (n' % d') < d' := by omega
  simp only [quotient, hzero, hzero', hle, hle', hgt, hgt', hlt, hlt', hdiv, hdiv', h, ↓reduceIte]

/-! ### Numbers -/

/-- The number rounded to a natural number, as the magnitude of a number of the given sign. -/
def nearby (r : Rounding) (negative : Bool) (x : ℚ) : Nat :=
  r.quotient negative x.num.natAbs x.den

theorem nearby_div (r : Rounding) (negative : Bool) (n : Nat) {d : Nat} (hd : 0 < d) :
    r.nearby negative (n / d) = r.quotient negative n d := by
  obtain ⟨x, hx⟩ : ∃ x : ℚ, x = n / d := ⟨_, rfl⟩
  rw [← hx, nearby]
  refine r.quotient_eq_of_mul_eq negative x.den_pos hd ?_
  have hnonneg : 0 ≤ x := hx ▸ by positivity
  have hvalue : x * d = n := by
    rw [hx, div_mul_cancel₀]
    exact_mod_cast hd.ne'
  have hfraction : (x.num.natAbs : ℚ) = x * x.den := by
    rw [Nat.cast_natAbs, abs_of_nonneg (Rat.num_nonneg.mpr hnonneg), Rat.mul_den_eq_num]
  have hcast : ((x.num.natAbs * d : ℕ) : ℚ) = (n * x.den : ℕ) := by
    push_cast
    rw [hfraction, ← hvalue]
    ring
  exact_mod_cast hcast

theorem nearby_natCast (r : Rounding) (negative : Bool) (n : Nat) :
    r.nearby negative n = n := by
  have h := r.nearby_div negative n one_pos
  rwa [Nat.cast_one, div_one, quotient_one] at h

theorem exists_fraction {x : ℚ} (hx : 0 ≤ x) : ∃ n d : ℕ, 0 < d ∧ x = n / d := by
  refine ⟨x.num.natAbs, x.den, x.den_pos, ?_⟩
  rw [Nat.cast_natAbs, abs_of_nonneg (Rat.num_nonneg.mpr hx), Rat.num_div_den]

variable {x : ℚ}

theorem le_nearby {n : Nat} (h : n ≤ x) : n ≤ r.nearby negative x := by
  obtain ⟨m, d, hd, rfl⟩ := exists_fraction ((Nat.cast_nonneg n).trans h)
  rw [nearby_div _ _ _ hd]
  refine le_trans ?_ (r.div_le_quotient negative m d)
  rw [Nat.le_div_iff_mul_le hd]
  rw [le_div_iff₀ (by exact_mod_cast hd)] at h
  exact_mod_cast h

theorem nearby_le {n : Nat} (hx : 0 ≤ x) (h : x ≤ n) : r.nearby negative x ≤ n := by
  obtain ⟨m, d, hd, rfl⟩ := exists_fraction hx
  rw [nearby_div _ _ _ hd]
  rw [div_le_iff₀ (by exact_mod_cast hd)] at h
  have hle : m ≤ n * d := by exact_mod_cast h
  by_cases hmod : m % d = 0
  · rw [quotient_of_mod_eq_zero hmod]
    exact Nat.div_le_of_le_mul (by rwa [Nat.mul_comm])
  · refine (r.quotient_le_add_one negative m d).trans ?_
    rw [Nat.succ_le_iff, Nat.div_lt_iff_lt_mul hd]
    refine lt_of_le_of_ne hle ?_
    rintro rfl
    exact hmod (Nat.mul_mod_left n d)

/-- The nearest number is at most half a unit off. -/
theorem IsNearest.abs_nearby_sub_le (hr : r.IsNearest) (negative : Bool) (hx : 0 ≤ x) :
    |(r.nearby negative x : ℚ) - x| ≤ 1 / 2 := by
  obtain ⟨m, d, hd, rfl⟩ := exists_fraction hx
  rw [nearby_div _ _ _ hd]
  have hpos : (0 : ℚ) < d := by exact_mod_cast hd
  obtain ⟨hle, hge⟩ := hr.quotient_spec negative (n := m) hd
  have hle' : (2 : ℚ) * (r.quotient negative m d * d) ≤ 2 * m + d := by exact_mod_cast hle
  have hge' : (2 : ℚ) * m ≤ 2 * (r.quotient negative m d * d) + d := by exact_mod_cast hge
  have hfraction : (m : ℚ) / d * d = m := div_mul_cancel₀ _ hpos.ne'
  rw [abs_le]
  constructor
  · refine le_of_mul_le_mul_right ?_ hpos
    linarith
  · refine le_of_mul_le_mul_right ?_ hpos
    linarith

/-- A natural number that is less than half a unit off is the nearest one. -/
theorem IsNearest.nearby_eq (hr : r.IsNearest) (negative : Bool) (hx : 0 ≤ x) {n : Nat}
    (h : |(n : ℚ) - x| < 1 / 2) : r.nearby negative x = n := by
  have hnear := abs_le.mp (hr.abs_nearby_sub_le negative hx)
  obtain ⟨hlow, hhigh⟩ := abs_lt.mp h
  have hlt : (r.nearby negative x : ℚ) < (n + 1 : ℕ) := by
    push_cast
    linarith
  have hgt : (n : ℚ) < (r.nearby negative x + 1 : ℕ) := by
    push_cast
    linarith
  have := Nat.cast_lt.mp hlt
  have := Nat.cast_lt.mp hgt
  omega

/-- An even number half a unit off is the nearest one. -/
theorem nearby_halfEven_of_even (negative : Bool) {x : ℚ} {n : Nat} (hx : 0 ≤ x)
    (hn : n % 2 = 0) (h : |(n : ℚ) - x| ≤ 1 / 2) : halfEven.nearby negative x = n := by
  obtain ⟨m, d, hd, rfl⟩ := exists_fraction hx
  rw [nearby_div _ _ _ hd]
  have hpos : (0 : ℚ) < d := by exact_mod_cast hd
  have hfraction : (m : ℚ) / d * d = m := div_mul_cancel₀ _ hpos.ne'
  obtain ⟨hlow, hhigh⟩ := abs_le.mp h
  have hlow' : 2 * m ≤ 2 * (n * d) + d := by
    have : (2 : ℚ) * m ≤ 2 * (n * d) + d := by nlinarith
    exact_mod_cast this
  have hhigh' : 2 * (n * d) ≤ 2 * m + d := by
    have : (2 : ℚ) * (n * d) ≤ 2 * m + d := by nlinarith
    exact_mod_cast this
  have hsplit := Nat.div_add_mod' m d
  have hrest := Nat.mod_lt m hd
  -- the integer part is the even number or the odd one before it
  have hdiv : m / d = n ∨ m / d + 1 = n := by
    rcases lt_trichotomy (m / d) n with hlt | heq | hgt
    · right
      by_contra hne
      have : (m / d + 2) * d ≤ n * d := Nat.mul_le_mul_right d (by omega)
      have : (m / d + 2) * d = m / d * d + 2 * d := by ring
      omega
    · exact .inl heq
    · exfalso
      have : (n + 1) * d ≤ m / d * d := Nat.mul_le_mul_right d hgt
      have : (n + 1) * d = n * d + d := by ring
      omega
  rcases hdiv with hdiv | hdiv
  · rw [hdiv] at hsplit
    simp only [quotient, hdiv]
    split_ifs <;> omega
  · have : n * d = m / d * d + d := by rw [← hdiv]; ring
    simp only [quotient]
    split_ifs <;> omega

/-- Rounding half up is the integer part of half a unit more. -/
theorem nearby_halfUp (negative : Bool) (hx : 0 ≤ x) :
    halfUp.nearby negative x = ⌊x + 1 / 2⌋₊ := by
  obtain ⟨m, d, hd, rfl⟩ := exists_fraction hx
  have hpos : (0 : ℚ) < d := by exact_mod_cast hd
  have hsum : (m : ℚ) / d + 1 / 2 = (2 * m + d : ℕ) / (2 * d : ℕ) := by
    push_cast
    field_simp
  rw [nearby_div _ _ _ hd, hsum, Rat.natFloor_natCast_div_natCast, eq_comm,
    Nat.div_eq_iff (by omega)]
  have hsplit := Nat.div_add_mod' m d
  have hrest := Nat.mod_lt m hd
  have hdouble : ∀ q, q * (2 * d) = 2 * (q * d) := fun q => Nat.mul_left_comm q 2 d
  have hnext := Nat.add_one_mul (m / d) d
  simp only [quotient]
  split_ifs <;> rw [hdouble] <;> omega

/-! ### Towards one side -/

theorem nearby_down (negative : Bool) (hx : 0 ≤ x) : down.nearby negative x = ⌊x⌋₊ := by
  obtain ⟨m, d, hd, rfl⟩ := exists_fraction hx
  rw [nearby_div _ _ _ hd, Rat.natFloor_natCast_div_natCast]
  simp only [quotient, ite_self]

theorem natCeil_div (m : Nat) {d : Nat} (hd : 0 < d) :
    ⌈(m : ℚ) / d⌉₊ = if m % d = 0 then m / d else m / d + 1 := by
  have hpos : (0 : ℚ) < d := by exact_mod_cast hd
  have hsplit := Nat.div_add_mod' m d
  refine le_antisymm ?_ ?_
  · rw [Nat.ceil_le, div_le_iff₀ hpos]
    norm_cast
    split
    · omega
    · have := Nat.mod_lt m hd
      rw [Nat.add_one_mul]
      omega
  · have hle : (m : ℚ) ≤ ⌈(m : ℚ) / d⌉₊ * d := by
      rw [← div_le_iff₀ hpos]
      exact Nat.le_ceil _
    have hle' : m ≤ ⌈(m : ℚ) / d⌉₊ * d := by exact_mod_cast hle
    split
    · exact Nat.div_le_of_le_mul (by rwa [Nat.mul_comm])
    · rename_i hmod
      rw [Nat.succ_le_iff, Nat.div_lt_iff_lt_mul hd]
      refine lt_of_le_of_ne hle' fun heq => hmod ?_
      rw [heq, Nat.mul_mod_left]

theorem nearby_floor (negative : Bool) (hx : 0 ≤ x) :
    floor.nearby negative x = if negative then ⌈x⌉₊ else ⌊x⌋₊ := by
  obtain ⟨m, d, hd, rfl⟩ := exists_fraction hx
  rw [nearby_div _ _ _ hd, Rat.natFloor_natCast_div_natCast, natCeil_div m hd]
  cases negative with
  | true => simp only [quotient, ↓reduceIte]
  | false => simp only [quotient, Bool.false_eq_true, ↓reduceIte, ite_self]

theorem nearby_ceiling (negative : Bool) (hx : 0 ≤ x) :
    ceiling.nearby negative x = if negative then ⌊x⌋₊ else ⌈x⌉₊ := by
  obtain ⟨m, d, hd, rfl⟩ := exists_fraction hx
  rw [nearby_div _ _ _ hd, Rat.natFloor_natCast_div_natCast, natCeil_div m hd]
  cases negative with
  | true => simp only [quotient, ↓reduceIte, ite_self]
  | false => simp only [quotient, Bool.false_eq_true, ↓reduceIte]

end Rounding

end Reckon
