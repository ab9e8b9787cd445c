import Reckon.Proofs.RootSteps

/-!
# Where the steps of the square root come to rest

A guess within a unit of the root stays where it is, or the next guess does (`rootStep_rootStep`).
The steps cannot go up from `g` and down again from `g + 1`: the quotients by these two differ by a
unit or less, and both are rounded to sixty-two digits in the same place, unless `g` is a power of
ten, where the quotient needs no rounding (`le_rootQuotient_add_one`).
-/

namespace Reckon

namespace Context
variable {ctx : Context} {y : ℚ}

/-- Rounding half up reaches a multiple of the last place from half a unit before it on. -/
theorem le_fit_iff (hr : ctx.rounding = .halfUp) (hy : 0 ≤ y) (n : ℕ) :
    n * 10 ^ ctx.place y ≤ ctx.fit y ↔ n * 10 ^ ctx.place y - 10 ^ ctx.place y / 2 ≤ y := by
  have hunit := ten_zpow_pos (ctx.place y)
  have hquotient : 0 ≤ y / 10 ^ ctx.place y := div_nonneg hy hunit.le
  rw [fit_of_nonneg hy, rounded, kept, hr, Rounding.nearby_halfUp false hquotient,
    mul_le_mul_iff_left₀ hunit, Nat.cast_le, Nat.le_floor_iff (by linarith), ← sub_le_iff_le_add,
    le_div_iff₀ hunit, sub_mul, div_mul_eq_mul_div, one_mul]

end Context

namespace Numeric
variable {x : ℚ} {g n : ℕ}

theorem place_quotient_le (hx : 1 ≤ x) (hx' : x ≤ 100) (hg : 10 ^ 50 ≤ g) :
    rootContext.place (x / (g * rootUnit)) ≤ -59 := by
  have hlog : Int.log 10 (x / (g * rootUnit)) ≤ 2 := by
    have := (Context.zpow_log_le (quotient_pos hx hg)).trans (quotient_le hx' hg)
    rwa [zpow_le_zpow_iff_right₀ (by norm_num)] at this
  have htiny : rootContext.tiny = -1000060 := by decide
  have hdigits : rootContext.digits = 62 := rfl
  rw [Context.place, Context.lastPlace, htiny, hdigits]
  omega

/-- The quotient in whole units reaches a number when its sixty-two digits reach half a unit
less. -/
theorem le_rootQuotient_iff_fit (hx : 1 ≤ x) (hg : 10 ^ 50 ≤ g) :
    n ≤ rootQuotient x g ↔ (n - 1 / 2) * rootUnit ≤ rootContext.fit (x / (g * rootUnit)) := by
  have hunit := rootUnit_pos
  have hfit : 0 ≤ rootContext.fit (x / (g * rootUnit)) / rootUnit :=
    div_nonneg (Context.fit_nonneg (quotient_pos hx hg).le) hunit.le
  rw [rootQuotient, show rootContext.rounding = .halfUp from rfl, Rounding.nearby_halfUp false hfit,
    Nat.le_floor_iff (by linarith), ← sub_le_iff_le_add, le_div_iff₀ hunit]

theorem le_rootQuotient_iff (hx : 1 ≤ x) (hx' : x ≤ 100) (hg : 10 ^ 50 ≤ g) (hn : 1 ≤ n) :
    n ≤ rootQuotient x g ↔
      (n - 1 / 2) * rootUnit - 10 ^ rootContext.place (x / (g * rootUnit)) / 2 ≤
        x / (g * rootUnit) := by
  have hplace := place_quotient_le hx hx' hg
  obtain ⟨y, hy⟩ : ∃ y, y = x / (g * rootUnit) := ⟨_, rfl⟩
  rw [le_rootQuotient_iff_fit hx hg]
  rw [← hy] at hplace ⊢
  have hmultiple : ((n : ℚ) - 1 / 2) * rootUnit =
      ((10 * n - 5) * 10 ^ (-51 - rootContext.place y).toNat : ℕ) * 10 ^ rootContext.place y := by
    have hsplit := Decimal.ten_zpow_split (show rootContext.place y ≤ -51 by omega)
    rw [Nat.cast_mul, mul_assoc, ← tenTo_eq, ← hsplit, Nat.cast_sub (by omega), rootUnit_eq]
    norm_num
    ring
  rw [hmultiple]
  exact Context.le_fit_iff rfl (hy ▸ (quotient_pos hx hg).le) _

/-- A number by a power of ten has the digits of the number. -/
theorem fits_quotient {l : ℤ} (hfits : rootContext.Fits x) (hx : 1 ≤ x) (hl : l ≤ 2) :
    rootContext.Fits (x / 10 ^ l) := by
  obtain ⟨z, k, rfl, hz, hk⟩ := hfits
  refine ⟨z, k - l, by rw [zpow_sub₀ (by norm_num), mul_div_assoc], hz, ?_⟩
  have hfirst : (1 : ℚ) ≤ 10 ^ (k + 62) := by
    have hz' : (z : ℚ) ≤ 10 ^ (62 : ℕ) := by
      have : (z.natAbs : ℤ) < 10 ^ 62 := by exact_mod_cast hz
      exact_mod_cast (Int.le_natAbs.trans this.le)
    calc (1 : ℚ) ≤ z * 10 ^ k := hx
      _ ≤ 10 ^ (62 : ℕ) * 10 ^ k := mul_le_mul_of_nonneg_right hz' (ten_zpow_pos k).le
      _ = 10 ^ (k + 62) := by rw [zpow_add₀ (by norm_num), mul_comm]; norm_num
  rw [← zpow_zero (10 : ℚ), zpow_le_zpow_iff_right₀ (by norm_num)] at hfirst
  have htiny : rootContext.tiny = -1000060 := by decide
  rw [htiny]
  omega

/-- The quotients by a guess and by the next number. -/
theorem quotient_add_one (x : ℚ) (hg : 10 ^ 50 ≤ g) :
    x / ((g + 1 : ℕ) * rootUnit) = x / (g * rootUnit) * (g / (g + 1)) := by
  have hgpos : (0 : ℚ) < g := by exact_mod_cast (show 0 < g by omega)
  have hunit := rootUnit_pos
  push_cast
  field_simp

theorem quotient_add_one_le (hx : 1 ≤ x) (hg : 10 ^ 50 ≤ g) :
    x / ((g + 1 : ℕ) * rootUnit) ≤ x / (g * rootUnit) := by
  rw [quotient_add_one x hg]
  refine mul_le_of_le_one_right (quotient_pos hx hg).le ?_
  rw [div_le_one₀ (by positivity)]
  linarith

/-- Behind a guess that is not too far from the root, the quotient goes down by a unit at most. -/
theorem sub_rootUnit_le_quotient (hg : 10 ^ 50 ≤ g)
    (hnear : x / (g * rootUnit) ≤ (g + 1) * rootUnit) :
    x / (g * rootUnit) - rootUnit ≤ x / ((g + 1 : ℕ) * rootUnit) := by
  have hdifference : x / (g * rootUnit) - x / ((g + 1 : ℕ) * rootUnit) =
      x / (g * rootUnit) / (g + 1) := by
    rw [quotient_add_one x hg]
    field_simp
    ring
  have hle : x / (g * rootUnit) / (g + 1) ≤ rootUnit := by
    rw [div_le_iff₀ (by positivity)]
    linarith
  linarith

/-- A power of ten within a unit of a guess is the guess. -/
theorem zpow_eq_of_near {l : ℤ} (hg : 10 ^ 50 ≤ g) (hlow : ((g : ℚ) - 1) * rootUnit < 10 ^ l)
    (hhigh : (10 : ℚ) ^ l < (g + 1) * rootUnit) : (10 : ℚ) ^ l = g * rootUnit := by
  have hunit := rootUnit_pos
  have hplaces : (-rootPlaces : ℤ) ≤ l := by
    have hlt : (10 : ℚ) ^ (-rootPlaces : ℤ) < 10 ^ l := by
      have hgpos : (10 : ℚ) ^ 50 ≤ g := by exact_mod_cast hg
      rw [← rootUnit]
      nlinarith
    exact ((zpow_lt_zpow_iff_right₀ (by norm_num)).mp hlt).le
  obtain ⟨t, ht⟩ : ∃ t : ℕ, (10 : ℚ) ^ l = t * rootUnit := ⟨_, Decimal.ten_zpow_split hplaces⟩
  rw [ht] at hlow hhigh ⊢
  have hlow' : (g : ℚ) < (t + 1 : ℕ) := by
    push_cast
    linarith [lt_of_mul_lt_mul_right hlow hunit.le]
  have hhigh' : (t : ℚ) < (g + 1 : ℕ) := by
    push_cast
    exact lt_of_mul_lt_mul_right hhigh hunit.le
  have := Nat.cast_lt.mp hlow'
  have := Nat.cast_lt.mp hhigh'
  rw [show t = g by omega]

/-- When the quotient goes up from a guess, the quotient by the next number does not go down by
more than that. -/
theorem le_rootQuotient_add_one (hfits : rootContext.Fits x) (hx : 1 ≤ x) (hx' : x ≤ 100)
    (hg : 10 ^ 50 ≤ g) (hnear : x / (g * rootUnit) ≤ (g + 1) * rootUnit)
    (hup : g + 1 ≤ rootQuotient x g) : g ≤ rootQuotient x (g + 1) := by
  have hgpos : (0 : ℚ) < g := by exact_mod_cast (show 0 < g by omega)
  have hunit := rootUnit_pos
  have hpos := quotient_pos hx hg
  have hpos' := quotient_pos hx (show 10 ^ 50 ≤ g + 1 by omega)
  have hless := quotient_add_one_le hx hg
  have hdown := sub_rootUnit_le_quotient hg hnear
  have hlow := (le_rootQuotient_iff hx hx' hg (Nat.le_add_left 1 g)).mp hup
  rw [le_rootQuotient_iff_fit hx hg] at hup
  rw [le_rootQuotient_iff hx hx' (by omega) (by omega)]
  push_cast at hlow hup
  obtain ⟨y, hy⟩ : ∃ y, y = x / (g * rootUnit) := ⟨_, rfl⟩
  obtain ⟨y', hy'⟩ : ∃ y', y' = x / ((g + 1 : ℕ) * rootUnit) := ⟨_, rfl⟩
  rw [← hy] at hpos hless hdown hlow hup
  rw [← hy'] at hpos' hless hdown ⊢
  have hlast := ten_zpow_pos (rootContext.place y')
  rcases (Int.log_mono_right hpos' hless : Int.log 10 y' ≤ Int.log 10 y).eq_or_lt with hlog | hlog
  · -- both are rounded in the same place
    have hsame : rootContext.place y' = rootContext.place y := by
      rw [Context.place, Context.place, hlog]
    rw [hsame]
    linarith
  by_contra hnot
  have hfirst : 10 ^ Int.log 10 y ≤ y := Context.zpow_log_le hpos
  have hpassed : y' < 10 ^ Int.log 10 y :=
    (Context.lt_zpow_log_add_one y').trans_le (zpow_le_zpow_right₀ (by norm_num) (by omega))
  have hfine : (10 : ℚ) ^ rootContext.place y ≤ rootUnit := by
    have hplace := place_quotient_le hx hx' hg
    rw [← hy] at hplace
    exact zpow_le_zpow_right₀ (by norm_num) (hplace.trans (by decide))
  -- the power of ten that is passed is the guess, and the quotient by it needs no rounding
  have hpower : (10 : ℚ) ^ Int.log 10 y = g * rootUnit :=
    zpow_eq_of_near hg (by linarith) (by linarith)
  have hexact : rootContext.fit y = y := by
    have hmost : Int.log 10 y ≤ 2 := by
      have := hfirst.trans (hy ▸ quotient_le hx' hg)
      rwa [zpow_le_zpow_iff_right₀ (by norm_num)] at this
    have hfit := fits_quotient hfits hx hmost
    rw [hpower, ← hy] at hfit
    exact hfit.fit_eq
  rw [hexact] at hup
  have hratio : ((g : ℚ) - 1 / 2) * rootUnit ≤ y' := by
    rw [hy', quotient_add_one x hg, ← hy, mul_div_assoc', le_div_iff₀ (by positivity)]
    nlinarith
  linarith

theorem rootStep_eq_self_iff :
    rootStep x g = g ↔ rootQuotient x g = g ∨ rootQuotient x g + 1 = g := by
  rw [rootStep]
  omega

/-- The quotient in units of the guess. -/
theorem quotient_eq (x : ℚ) (g : ℕ) : x / (g * rootUnit) = x * 10 ^ 100 / g * rootUnit := by
  rw [rootUnit_eq]
  field_simp

/-! ### Rest -/

theorem rootQuotient_le_of_lt (hx : 1 ≤ x) (hx' : x ≤ 100) (hg : 10 ^ 50 ≤ g)
    (h : x * 10 ^ 100 / g < n + 2 / 5) : rootQuotient x g ≤ n := by
  have hnear := (abs_le.mp (abs_rootQuotient_sub_le hx hx' hg)).2
  have hlt : (rootQuotient x g : ℚ) < (n + 1 : ℕ) := by
    push_cast
    linarith
  exact Nat.lt_succ_iff.mp (Nat.cast_lt.mp hlt)

theorem le_rootQuotient_add (hx : 1 ≤ x) (hx' : x ≤ 100) (hg : 10 ^ 50 ≤ g) {k : ℕ}
    (h : n < x * 10 ^ 100 / g + (k + 2 / 5)) : n ≤ rootQuotient x g + k := by
  have hnear := (abs_le.mp (abs_rootQuotient_sub_le hx hx' hg)).1
  have hlt : (n : ℚ) < (rootQuotient x g + k + 1 : ℕ) := by
    push_cast
    linarith
  exact Nat.lt_succ_iff.mp (Nat.cast_lt.mp hlt)

/-- The number by the next guess, in units. -/
theorem div_add_one_le (hx : 1 ≤ x) (hg : 10 ^ 50 ≤ g) :
    x * 10 ^ 100 / (g + 1 : ℕ) ≤ x * 10 ^ 100 / g := by
  have hgpos : (10 : ℚ) ^ 50 ≤ g := by exact_mod_cast hg
  refine div_le_div_of_nonneg_left (by positivity) (by linarith) ?_
  push_cast
  linarith

/-- A step up leads to a guess at which the steps rest. -/
theorem rest_of_up (hfits : rootContext.Fits x) (hx : 1 ≤ x) (hx' : x ≤ 100) (hg : 10 ^ 50 ≤ g)
    (hhigh : x * 10 ^ 100 / g ≤ g + 11 / 20) (hup : rootQuotient x g = g + 1) :
    rootStep x (g + 1) = g + 1 := by
  have hnear : x / (g * rootUnit) ≤ (g + 1) * rootUnit := by
    rw [quotient_eq]
    exact mul_le_mul_of_nonneg_right (by linarith) rootUnit_pos.le
  have hle := le_rootQuotient_add_one hfits hx hx' hg hnear hup.ge
  have hmost : rootQuotient x (g + 1) ≤ g + 1 := by
    refine rootQuotient_le_of_lt hx hx' (by omega) ?_
    have hless := div_add_one_le hx hg
    push_cast at hless ⊢
    linarith
  rw [rootStep_eq_self_iff]
  omega

/-- So does a step down: otherwise the steps would go up again to the guess that led down. -/
theorem rest_of_down (hfits : rootContext.Fits x) (hx : 1 ≤ x) (hx' : x ≤ 100) (hg : 10 ^ 50 ≤ g)
    (hlow : (g + 1 : ℕ) - 8 / 5 ≤ x * 10 ^ 100 / (g + 1 : ℕ))
    (hdown : rootQuotient x (g + 1) + 1 = g) : rootStep x g = g := by
  have hbelow : x * 10 ^ 100 / (g + 1 : ℕ) ≤ g := by
    by_contra hnot
    have hle : g ≤ rootQuotient x (g + 1) + 0 := by
      refine le_rootQuotient_add hx hx' (by omega) ?_
      push_cast at hnot ⊢
      linarith
    omega
  have hnear : x / (g * rootUnit) ≤ (g + 1) * rootUnit := by
    have hgpos : (10 : ℚ) ^ 50 ≤ g := by exact_mod_cast hg
    rw [quotient_eq]
    refine mul_le_mul_of_nonneg_right ?_ rootUnit_pos.le
    rw [div_le_iff₀ (by positivity)] at hbelow ⊢
    push_cast at hbelow
    linarith
  have hnot : ¬ g + 1 ≤ rootQuotient x g := by
    intro hup
    have hle := le_rootQuotient_add_one hfits hx hx' hg hnear hup
    omega
  have hleast : g ≤ rootQuotient x g + 1 := by
    refine le_rootQuotient_add hx hx' hg ?_
    have hless := div_add_one_le hx hg
    push_cast at hlow hless ⊢
    linarith
  rw [rootStep_eq_self_iff]
  omega

/-- Near the root the steps come to rest behind the next guess. -/
theorem rootStep_rootStep (hfits : rootContext.Fits x) (hx : 1 ≤ x) (hx' : x ≤ 100)
    (hg : 10 ^ 50 ≤ g) (hnext : 10 ^ 50 ≤ rootStep x g) (hlow : g - 8 / 5 ≤ x * 10 ^ 100 / g)
    (hhigh : x * 10 ^ 100 / g ≤ g + 11 / 20) :
    rootStep x (rootStep x g) = rootStep x g := by
  have hleast : g ≤ rootQuotient x g + 2 := by
    refine le_rootQuotient_add hx hx' hg ?_
    push_cast
    linarith
  have hmost : rootQuotient x g ≤ g + 1 := by
    refine rootQuotient_le_of_lt hx hx' hg ?_
    push_cast
    linarith
  obtain hself | hup | hdown : (rootQuotient x g = g ∨ rootQuotient x g + 1 = g) ∨
      rootQuotient x g = g + 1 ∨ rootQuotient x g + 2 = g := by omega
  · have hfixed := rootStep_eq_self_iff.mpr hself
    rw [hfixed, hfixed]
  · have hstep : rootStep x g = g + 1 := by
      rw [rootStep]
      omega
    rw [hstep]
    exact rest_of_up hfits hx hx' hg hhigh hup
  · obtain ⟨h, rfl⟩ : ∃ h, g = h + 1 := ⟨g - 1, by omega⟩
    have hstep : rootStep x (h + 1) = h := by
      rw [rootStep]
      omega
    rw [hstep] at hnext ⊢
    exact rest_of_down hfits hx hx' hnext hlow (by omega)

end Numeric

end Reckon
