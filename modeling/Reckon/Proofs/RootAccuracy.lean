import Mathlib.Analysis.Real.Sqrt
import Reckon.Proofs.RootRest

/-!
# The accuracy of square roots

A positive number is moved by an even power of ten to a number from one to a hundred, the root of
which is found in units of the fiftieth place (`exists_newton`), moved back and rounded to fifty
digits. The last guess lies within a unit of the root of the number that was given, and rounding
moves it by five units more at most, so that the result is off by less than ten (`sqrt_accurate`).
-/

namespace Reckon.Numeric

variable {x y : ℚ} {g h : ℕ}

/-! ### Any field -/

section
variable {K : Type} [Field K] [LinearOrder K] [IsStrictOrderedRing K] {s : K}

/-- A step for a number is one of Newton's towards the root of any number close to it. -/
theorem isStep_rootStep (hx : 1 ≤ x) (hx' : x ≤ 100) (hg : 10 ^ 50 ≤ g)
    (hy : |x - y| ≤ 1 / 10 ^ 59) (hs : s ^ 2 = (y : K) * 10 ^ 100) :
    IsStep s g (rootStep x g) := by
  have hgpos : (10 : ℚ) ^ 50 ≤ g := by exact_mod_cast hg
  have hclose : |x * 10 ^ 100 / g - y * 10 ^ 100 / g| ≤ 1 / 10 ^ 9 := by
    rw [← sub_div, ← sub_mul, abs_div, abs_mul, abs_of_pos (by linarith : (0 : ℚ) < g),
      abs_of_pos (by positivity : (0 : ℚ) < 10 ^ 100), div_le_iff₀ (by linarith)]
    calc |x - y| * 10 ^ 100 ≤ 1 / 10 ^ 59 * 10 ^ 100 :=
          mul_le_mul_of_nonneg_right hy (by positivity)
      _ = 1 / 10 ^ 9 * 10 ^ 50 := by norm_num
      _ ≤ 1 / 10 ^ 9 * g := mul_le_mul_of_nonneg_left hgpos (by positivity)
  have hquotient : |(rootQuotient x g : ℚ) - y * 10 ^ 100 / g| ≤ 1 / 2 + 1 / 10 ^ 8 := by
    have h := (abs_sub_le _ (x * 10 ^ 100 / g) _).trans
      (add_le_add (abs_rootQuotient_sub_le hx hx' hg) hclose)
    norm_num at h ⊢
    linarith
  refine isStep_of_nearest (by omega) ?_
  have hcast := (Rat.cast_le (K := K)).mpr hquotient
  rw [Rat.cast_abs] at hcast
  push_cast at hcast
  rwa [hs]

/-- A guess at which the steps rest lies within a unit of the root. -/
theorem within_of_rest (hx : 1 ≤ x) (hx' : x ≤ 100) (hh : 10 ^ 50 ≤ h)
    (hrest : rootStep x h = h) (hy : |x - y| ≤ 1 / 10 ^ 59) (hs : s ^ 2 = (y : K) * 10 ^ 100)
    (hlow : 10 ^ 50 ≤ s) : Within s (39 / 50) h := by
  have hstep := isStep_rootStep hx hx' hh hy hs
  rw [hrest] at hstep
  exact hstep.within_of_eq hlow hh

end

/-! ### The guess at which the steps rest -/

/-- The root of a number between one and a hundred, in units. -/
theorem exists_root (hx : 1 ≤ x) (hx' : x ≤ 100) :
    ∃ s : ℝ, s ^ 2 = (x : ℝ) * 10 ^ 100 ∧ 10 ^ 50 ≤ s ∧ s ≤ 10 ^ 51 := by
  have hcast : (1 : ℝ) ≤ x := by exact_mod_cast hx
  have hcast' : (x : ℝ) ≤ 100 := by exact_mod_cast hx'
  refine ⟨√((x : ℝ) * 10 ^ 100), Real.sq_sqrt (by positivity), ?_, ?_⟩
  · refine Real.le_sqrt_of_sq_le ?_
    norm_num
    linarith
  · refine Real.sqrt_le_iff.mpr ⟨by positivity, ?_⟩
    norm_num
    linarith

theorem rootStep_mem_range (hx : 1 ≤ x) (hx' : x ≤ 100) (hg : 10 ^ 50 ≤ g) (hg' : g ≤ 10 ^ 52) :
    10 ^ 50 ≤ rootStep x g ∧ rootStep x g ≤ 10 ^ 52 := by
  obtain ⟨s, hs, hlow, hhigh⟩ := exists_root hx hx'
  have hstep := isStep_rootStep hx hx' hg (by rw [sub_self, abs_zero]; positivity) hs
  refine ⟨?_, hstep.le_ten_pow hlow hg hhigh hg'⟩
  exact Within.ten_pow_le hlow ⟨hstep.low, le_rfl⟩

/-- The square of a guess within a unit of the root is close to the number. -/
theorem abs_sub_sq_le {s : ℝ} (hs : s ^ 2 = (x : ℝ) * 10 ^ 100) (hlow : 10 ^ 50 ≤ s)
    (hhigh : s ≤ 10 ^ 51) (hwithin : Within s (39 / 50) h) :
    |x - (h * rootUnit) ^ 2| ≤ 1 / 100 := by
  have hsquares : |(x : ℝ) * 10 ^ 100 - h ^ 2| ≤ 10 ^ 52 := by
    rw [← hs, abs_le]
    constructor <;> nlinarith [hwithin.1, hwithin.2]
  have hsquares' : |x * 10 ^ 100 - (h : ℚ) ^ 2| ≤ 10 ^ 52 := by
    rw [← Rat.cast_le (K := ℝ), Rat.cast_abs]
    push_cast
    exact hsquares
  have hunits : x - ((h : ℚ) * rootUnit) ^ 2 = (x * 10 ^ 100 - h ^ 2) / 10 ^ 100 := by
    rw [rootUnit_eq]
    field_simp
  rw [hunits, abs_div, abs_of_pos (by positivity : (0 : ℚ) < 10 ^ 100),
    div_le_iff₀ (by positivity)]
  exact hsquares'.trans (by norm_num)

/-- Eighteen steps lead to a guess at which they rest, and the square of which is close. -/
theorem rest_of_iterate (hfits : rootContext.Fits x) (hx : 1 ≤ x) (hx' : x ≤ 100)
    (hg : 10 ^ 50 ≤ g) (hg' : g ≤ 10 ^ 51) (hh : (rootStep x)^[18] g = h) :
    10 ^ 50 ≤ h ∧ h ≤ 10 ^ 52 ∧ rootStep x h = h ∧ |x - (h * rootUnit) ^ 2| ≤ 1 / 100 := by
  obtain ⟨s, hs, hlow, hhigh⟩ := exists_root hx hx'
  have hstep : ∀ g, 10 ^ 50 ≤ g → IsStep s g (rootStep x g) := fun g hg =>
    isStep_rootStep hx hx' hg (by rw [sub_self, abs_zero]; positivity) hs
  obtain ⟨k, hk⟩ : ∃ k, k = (rootStep x)^[17] g := ⟨_, rfl⟩
  have hwithin : Within s (39 / 50) k := hk ▸ within_iterate hlow hstep hhigh hg hg' le_rfl
  have hkrange := hwithin.ten_pow_le hlow
  have hnext : rootStep x k = h := by
    rw [hk, ← Function.iterate_succ_apply' (rootStep x) 17, hh]
  have hwithin' : Within s (39 / 50) h := hnext ▸ hwithin.stays hkrange (hstep k hkrange)
  have hhrange := hwithin'.ten_pow_le hlow
  have hhighK : (h : ℝ) ≤ 10 ^ 52 := by linarith [hwithin'.2]
  refine ⟨hhrange, by exact_mod_cast hhighK, ?_, abs_sub_sq_le hs hlow hhigh hwithin'⟩
  obtain ⟨hquot, hquot'⟩ := hwithin.quotient_bounds hkrange
  rw [hs] at hquot hquot'
  rw [← hnext]
  refine rootStep_rootStep hfits hx hx' hkrange (hnext ▸ hhrange) ?_ ?_
  · rw [← Rat.cast_le (K := ℝ)]
    push_cast
    exact hquot
  · rw [← Rat.cast_le (K := ℝ)]
    push_cast
    exact hquot'

/-! ### From the number to its mantissa -/

variable {a m : Decimal} {q : ℚ}

theorem leadingExponent_eq_log (ha : a.toRat? = some q) (hq : 0 < q) :
    a.leadingExponent = Int.log 10 q := by
  have hsign := Decimal.isNegative_of_pos ha hq
  cases a with
  | infinite | nan => cases ha
  | finite negative c e =>
    obtain rfl : negative = false := hsign
    rw [Decimal.toRat?_finite, Option.some_inj, Decimal.signed_false, Int.cast_natCast] at ha
    have hc : c ≠ 0 := by
      rintro rfl
      rw [Nat.cast_zero, zero_mul] at ha
      exact hq.ne ha
    rw [← ha, log_mul_zpow hc]
    rfl

/-- The first guess for a number of one or two digits is one, for a hundred it is ten. -/
theorem exists_firstGuess_power (hm : m.toRat? = some x) (hx : 1 ≤ x) (hx' : x ≤ 100) :
    ∃ k : ℕ, k ≤ 1 ∧ firstGuess m = .ok (.finite false 1 k) := by
  have hsign := Decimal.isNegative_of_pos hm (by linarith)
  cases m with
  | infinite | nan => cases hm
  | finite negative c e =>
    obtain rfl : negative = false := hsign
    rw [Decimal.toRat?_finite, Option.some_inj, Decimal.signed_false, Int.cast_natCast] at hm
    refine ⟨(Decimal.digitCount (Decimal.magnitude c e) - 1) / 2, ?_, rfl⟩
    have hle : Decimal.magnitude c e ≤ 100 := by
      rw [Decimal.magnitude_eq_div]
      refine Nat.div_le_of_le_mul ?_
      have hcast : ((c * 10 ^ e.toNat : ℕ) : ℚ) ≤ (10 ^ (-e).toNat * 100 : ℕ) := by
        rw [Nat.cast_mul, cast_pow_toNat e, ← mul_assoc, hm, Nat.cast_mul, mul_comm]
        exact mul_le_mul_of_nonneg_left hx' (Nat.cast_nonneg _)
      exact_mod_cast hcast
    have hcount : Decimal.digitCount (Decimal.magnitude c e) ≤ 3 := by
      rcases eq_or_ne (Decimal.magnitude c e) 0 with hzero | hne
      · rw [hzero]
        decide
      · exact Decimal.digitCount_le_of_lt_pow hne (hle.trans_lt (by decide))
    omega

/-- Moved by an even power of ten, a number has one digit or two in front of the point. -/
theorem mantissa_bounds (ha : a.toRat? = some q) (hq : 0 < q) :
    1 ≤ q * 10 ^ (-2 * (a.leadingExponent / 2)) ∧
      q * 10 ^ (-2 * (a.leadingExponent / 2)) < 100 := by
  have hleading := leadingExponent_eq_log ha hq
  obtain ⟨half, hhalf⟩ : ∃ half, half = a.leadingExponent / 2 := ⟨_, rfl⟩
  rw [← hhalf]
  have hlow : (10 : ℚ) ^ (2 * half) ≤ q :=
    (zpow_le_zpow_right₀ (by norm_num) (by omega)).trans (Context.zpow_log_le hq)
  have hhigh : q < 10 ^ (2 * half + 2) :=
    (Context.lt_zpow_log_add_one q).trans_le (zpow_le_zpow_right₀ (by norm_num) (by omega))
  have hpos := ten_zpow_pos (2 * half)
  rw [neg_mul, zpow_neg, ← div_eq_mul_inv, le_div_iff₀ hpos, div_lt_iff₀ hpos, one_mul]
  refine ⟨hlow, hhigh.trans_eq ?_⟩
  rw [zpow_add₀ (by norm_num), mul_comm]
  norm_num

/-- The iteration ends by itself within nineteen rounds, at a guess at which the steps rest. -/
theorem exists_newton (hm : m.toRat? = some x) (hfits : rootContext.Fits x) (hx : 1 ≤ x)
    (hx' : x ≤ 100) : ∃ guess h, firstGuess m = .ok guess ∧ 10 ^ 50 ≤ h ∧ h ≤ 10 ^ 52 ∧
      rootStep x h = h ∧ ∀ steps, 19 ≤ steps → newton m steps guess = .ok (point h) := by
  obtain ⟨k, hk, hguess⟩ := exists_firstGuess_power hm hx hx'
  have hlow : 10 ^ 50 ≤ 10 ^ (50 + k) := Nat.pow_le_pow_right (by decide) (by omega)
  have hhigh : 10 ^ (50 + k) ≤ 10 ^ 51 := Nat.pow_le_pow_right (by decide) (by omega)
  have hvalue : (Decimal.finite false 1 k).toRat? =
      some (((10 ^ (50 + k) : ℕ) : ℚ) * rootUnit) := by
    rw [Decimal.toRat?_finite, rootUnit_eq, pow_add, Decimal.signed_false, zpow_natCast]
    push_cast
    congr 1
    field_simp
    norm_num
  obtain ⟨h, hh⟩ : ∃ h, (rootStep x)^[18] (10 ^ (50 + k)) = h := ⟨_, rfl⟩
  obtain ⟨hlow', hhigh', hrest, hclose⟩ := rest_of_iterate hfits hx hx' hlow hhigh hh
  refine ⟨_, h, hguess, hlow', hhigh', hrest, fun steps hsteps => ?_⟩
  obtain ⟨j, rfl⟩ := Nat.exists_eq_add_of_le hsteps
  rw [show 19 + j = 18 + j + 1 by omega]
  exact newton_eq hm hx hx' (fun _ => rootStep_mem_range hx hx') 18 j hlow
    (hhigh.trans (by decide)) hvalue hh hrest hclose

/-- The mantissa is rounded to sixty-two digits. -/
theorem exists_mantissa (ha : a.toRat? = some q) {n : ℤ} (hn : n.natAbs ≤ 10 ^ 6)
    (hy : 1 ≤ q * 10 ^ n) (hy' : q * 10 ^ n < 100) :
    ∃ m x, Decimal.scale rootContext a n = .ok m ∧ m.toRat? = some x ∧ rootContext.Fits x ∧
      1 ≤ x ∧ x ≤ 100 ∧ |x - q * 10 ^ n| ≤ 1 / 10 ^ 59 := by
  have hscale : rootContext.Rounds (q * 10 ^ n) (Decimal.scale rootContext a n) :=
    Decimal.rounds_scale (by decide) ha (hn.trans (by decide))
  obtain ⟨y, hyq⟩ : ∃ y, y = q * 10 ^ n := ⟨_, rfl⟩
  rw [← hyq] at hy hy' hscale ⊢
  have habs : |y| = y := abs_of_nonneg (by linarith)
  have hle : |y| ≤ 10 ^ (2 : ℤ) := by
    rw [habs]
    norm_num
    linarith
  obtain ⟨m, hm, hmvalue⟩ := hscale.exists_of_le (by decide) (by decide) (by decide) hle
  refine ⟨m, _, hm, hmvalue, Context.fits_fit (by decide) y, ?_, ?_, ?_⟩
  · have h : 10 ^ (0 : ℤ) ≤ rootContext.fit y :=
      Context.zpow_le_fit (by decide) (by decide) (by rw [zpow_zero]; exact hy)
    rwa [zpow_zero] at h
  · have h : |rootContext.fit y| ≤ 10 ^ (2 : ℤ) :=
      Context.abs_fit_le_zpow (by decide) (by decide) hle
    exact (le_abs_self _).trans (h.trans_eq (by norm_num))
  · have hlt : |y| < 10 ^ (1 + 1 : ℤ) := by
      rw [habs]
      exact hy'.trans_eq (by norm_num)
    refine (Context.abs_fit_sub_le_zpow (.inr rfl) (by decide) hlt).trans ?_
    norm_num [rootContext]

/-- The last guess is moved back without loss, and rounded to fifty digits. -/
theorem exists_restored (hh : h ≤ 10 ^ 52) {half : ℤ} (hlow : -500000 ≤ half)
    (hhigh : half ≤ 500000) : ∃ d r, Decimal.scale rootContext (point h) half = .ok d ∧
      Decimal.plus .working d = .ok r ∧
      r.toRat? = some (Context.working.fit (h * 10 ^ (half - 50))) := by
  have hmax : Context.maxExponent = 999999 := rfl
  have hdigits : rootContext.digits = 62 := rfl
  have htiny : rootContext.tiny = -1000060 := by decide
  have hvalue : (h : ℚ) * rootUnit * 10 ^ half = h * 10 ^ (half - 50) := by
    rw [rootUnit, mul_assoc, ← zpow_add₀ (by norm_num)]
    congr 2
    change -50 + half = half - 50
    ring
  have hscale : rootContext.Rounds _ (Decimal.scale rootContext (point h) half) :=
    Decimal.rounds_scale (by decide) (toRat?_point h) (by omega)
  rw [hvalue] at hscale
  obtain ⟨d, hd, hdvalue⟩ := hscale.exact
    (Context.holds_of_lt_pow (hh.trans_lt (Nat.pow_lt_pow_right (by decide) (by decide)))
      (by omega) (by omega))
  have hplus : Context.working.Rounds _ (Decimal.plus .working d) :=
    Decimal.rounds_plus (by decide) hdvalue
  have hlarge : |(h : ℚ) * 10 ^ (half - 50)| ≤ 10 ^ (half + 2) := by
    have hcast : (h : ℚ) ≤ 10 ^ (52 : ℤ) := by exact_mod_cast hh
    rw [abs_of_nonneg (mul_nonneg (Nat.cast_nonneg h) (ten_zpow_pos _).le),
      show half + 2 = 52 + (half - 50) by ring, zpow_add₀ (by norm_num)]
    exact mul_le_mul_of_nonneg_right hcast (ten_zpow_pos _).le
  have htiny' : Context.working.tiny = -1000048 := by decide
  obtain ⟨r, hr, hrvalue⟩ := hplus.exists_of_le (by decide) (by omega) (by omega) hlarge
  exact ⟨d, r, hd, hr, hrvalue⟩

/-- The stages of the square root of a positive number. -/
theorem sqrt_eq_of_stages (ha : a.toRat? = some q) (hq : 0 < q) {half : ℤ} {guess g d r : Decimal}
    (hhalf : half = a.leadingExponent / 2)
    (hm : Decimal.scale rootContext a (-2 * half) = .ok m) (hguess : firstGuess m = .ok guess)
    (hnewton : newton m maxRootSteps guess = .ok g) (hd : Decimal.scale rootContext g half = .ok d)
    (hr : Decimal.plus .working d = .ok r) : sqrt a = .ok r := by
  have hless : a.less .zero = .ok false := by
    rw [Decimal.less_eq_decide ha Decimal.toRat?_zero, decide_eq_false hq.not_gt]
  have hzero : a.isZero = false := by
    rw [← Bool.not_eq_true, Decimal.isZero, Decimal.same_eq_true_iff ha Decimal.toRat?_zero]
    exact hq.ne'
  rw [sqrt, hless, hzero, ← hhalf]
  change (liftM (Decimal.scale rootContext a (-2 * half)) >>= _ : Except Failure Decimal) = _
  rw [hm]
  change (firstGuess m >>= _) = _
  rw [hguess]
  change (liftM (newton m maxRootSteps guess) >>= _ : Except Failure Decimal) = _
  rw [hnewton]
  change (liftM (Decimal.scale rootContext g half) >>= _ : Except Failure Decimal) = _
  rw [hd]
  change (liftM (Decimal.plus .working d) : Except Failure Decimal) = _
  rw [hr]
  rfl

/-- What the square root of a positive number is computed to, in units of its own fiftieth place. -/
theorem exists_sqrt (ha : a.toRat? = some q) (hq : 0 < q)
    (hlow : Context.minExponent ≤ a.leadingExponent)
    (hhigh : a.leadingExponent ≤ Context.maxExponent) {half : ℤ}
    (hhalf : half = a.leadingExponent / 2) :
    ∃ x h m guess r, 1 ≤ x ∧ x ≤ 100 ∧ |x - q * 10 ^ (-2 * half)| ≤ 1 / 10 ^ 59 ∧
      10 ^ 50 ≤ h ∧ h ≤ 10 ^ 52 ∧ rootStep x h = h ∧
      Decimal.scale rootContext a (-2 * half) = .ok m ∧ firstGuess m = .ok guess ∧
      (∀ steps, 19 ≤ steps → newton m steps guess = .ok (point h)) ∧
      sqrt a = .ok r ∧ r.toRat? = some (Context.working.fit (h * 10 ^ (half - 50))) := by
  have hmin : Context.minExponent = -999999 := rfl
  have hmax : Context.maxExponent = 999999 := rfl
  obtain ⟨hy, hy'⟩ := mantissa_bounds ha hq
  rw [← hhalf] at hy hy'
  obtain ⟨m, x, hm, hmvalue, hfits, hx, hx', hclose⟩ :=
    exists_mantissa ha (by omega) hy hy'
  obtain ⟨guess, h, hguess, hhlow, hhhigh, hrest, hnewton⟩ := exists_newton hmvalue hfits hx hx'
  obtain ⟨d, r, hd, hr, hrvalue⟩ :=
    exists_restored hhhigh (show -500000 ≤ half by omega) (by omega)
  exact ⟨x, h, m, guess, r, hx, hx', hclose, hhlow, hhhigh, hrest, hm, hguess, hnewton,
    sqrt_eq_of_stages ha hq hhalf hm hguess (hnewton maxRootSteps (by decide)) hd hr, hrvalue⟩

/-! ### Accuracy -/

section
variable {K : Type} [Field K] [LinearOrder K] [IsStrictOrderedRing K] {s R : K} {half : ℤ}

/-- The units of the root of a number between one and a hundred. -/
theorem root_mem_range (hs : s ^ 2 = (y : K) * 10 ^ 100) (hnonneg : 0 ≤ s) (hy : 1 ≤ y)
    (hy' : y < 100) : 10 ^ 50 ≤ s ∧ s ≤ 10 ^ 51 := by
  have hcast : (1 : K) ≤ y := by exact_mod_cast hy
  have hcast' : (y : K) < 100 := by exact_mod_cast hy'
  constructor
  · refine le_of_sq_le_sq ?_ hnonneg
    rw [hs]
    norm_num
    linarith
  · refine le_of_sq_le_sq ?_ (by positivity)
    rw [hs]
    norm_num
    linarith

/-- The root moved to between one and a hundred, in units. -/
theorem sq_units (hR : R ^ 2 = (q : K)) (half : ℤ) :
    (R * 10 ^ (50 - half)) ^ 2 = ((q * 10 ^ (-2 * half) : ℚ) : K) * 10 ^ 100 := by
  rw [mul_pow, hR]
  push_cast
  rw [mul_assoc, ← zpow_natCast, ← zpow_mul, ← zpow_natCast (10 : K) 100,
    ← zpow_add₀ (by norm_num)]
  congr 2
  push_cast
  ring

/-- Rounding the last guess to fifty digits moves it by five units at most. -/
theorem abs_fit_sub_le_units (hh : h ≤ 10 ^ 51) (hlow : -500000 ≤ half) :
    |Context.working.fit (h * 10 ^ (half - 50)) - h * 10 ^ (half - 50)| ≤
      5 * 10 ^ (half - 50) := by
  have htiny : Context.working.tiny = -1000048 := by decide
  have hdigits : Context.working.digits = 50 := rfl
  have hunit := ten_zpow_pos (half - 50)
  rcases hh.eq_or_lt with rfl | hlt
  · have hfits : Context.working.Fits ((10 ^ 51 : ℕ) * 10 ^ (half - 50)) := by
      refine ⟨1, half + 1, ?_, by decide, by omega⟩
      rw [show half + 1 = 51 + (half - 50) by ring, zpow_add₀ (by norm_num)]
      push_cast
      ring
    rw [hfits.fit_eq, sub_self, abs_zero]
    positivity
  · have hsmall : |(h : ℚ) * 10 ^ (half - 50)| < 10 ^ (half + 1) := by
      have hcast : (h : ℚ) < 10 ^ (51 : ℤ) := by exact_mod_cast hlt
      rw [abs_of_nonneg (mul_nonneg (Nat.cast_nonneg h) hunit.le),
        show half + 1 = 51 + (half - 50) by ring, zpow_add₀ (by norm_num)]
      exact mul_lt_mul_of_pos_right hcast hunit
    refine (Context.abs_fit_sub_le_zpow (.inl rfl) (by omega) hsmall).trans_eq ?_
    rw [hdigits, show half - (50 : ℕ) + 1 = 1 + (half - 50) by push_cast; ring,
      zpow_add₀ (by norm_num)]
    ring

/-- The last guess lies within a unit of the root. -/
theorem within_root (hx : 1 ≤ x) (hx' : x ≤ 100) (hclose : |x - q * 10 ^ (-2 * half)| ≤ 1 / 10 ^ 59)
    (hy : 1 ≤ q * 10 ^ (-2 * half)) (hy' : q * 10 ^ (-2 * half) < 100) (hh : 10 ^ 50 ≤ h)
    (hrest : rootStep x h = h) (hR : R ^ 2 = (q : K)) (hRnonneg : 0 ≤ R) :
    Within (R * 10 ^ (50 - half)) (39 / 50) h ∧ h ≤ 10 ^ 51 := by
  have hs := sq_units hR half
  have hnonneg : 0 ≤ R * 10 ^ (50 - half) := mul_nonneg hRnonneg (zpow_nonneg (by norm_num) _)
  obtain ⟨hlow, hhigh⟩ := root_mem_range hs hnonneg hy hy'
  have hwithin := within_of_rest hx hx' hh hrest hclose hs hlow
  refine ⟨hwithin, ?_⟩
  have hlt : (h : K) < (10 ^ 51 + 1 : ℕ) := by
    push_cast
    linarith [hwithin.2]
  have hlt' : h < 10 ^ 51 + 1 := by exact_mod_cast hlt
  omega

/-- The result is off by less than a unit in the fiftieth digit of the scaled root. -/
theorem abs_fit_sub_lt_of_within (hwithin : Within (R * 10 ^ (50 - half)) (39 / 50) h)
    (hh : h ≤ 10 ^ 51) (hlow : -500000 ≤ half) :
    |((Context.working.fit (h * 10 ^ (half - 50)) : ℚ) : K) - R| < 10 ^ (half - 49) := by
  have hunit : (0 : K) < 10 ^ (half - 50) := zpow_pos (by norm_num) _
  have hrounded : |((Context.working.fit (h * 10 ^ (half - 50)) : ℚ) : K) - h * 10 ^ (half - 50)| ≤
      5 * 10 ^ (half - 50) := by
    have h := (Rat.cast_le (K := K)).mpr (abs_fit_sub_le_units hh hlow)
    rw [Rat.cast_abs] at h
    push_cast at h
    exact h
  have hguess : |(h : K) * 10 ^ (half - 50) - R| ≤ 39 / 50 * 10 ^ (half - 50) := by
    have hroot : R = R * 10 ^ (50 - half) * 10 ^ (half - 50) := by
      rw [mul_assoc, ← zpow_add₀ (by norm_num), show 50 - half + (half - 50) = 0 by ring, zpow_zero,
        mul_one]
    have hdistance : |(h : K) - R * 10 ^ (50 - half)| ≤ 39 / 50 :=
      abs_le.mpr ⟨by linarith [hwithin.1], hwithin.2⟩
    conv_lhs => rw [hroot]
    rw [← sub_mul, abs_mul, abs_of_pos hunit]
    exact mul_le_mul_of_nonneg_right hdistance hunit.le
  have hsum := (abs_sub_le _ ((h : K) * 10 ^ (half - 50)) _).trans (add_le_add hrounded hguess)
  have hplace : (10 : K) ^ (half - 49) = 10 * 10 ^ (half - 50) := by
    rw [show half - 49 = 1 + (half - 50) by ring, zpow_add₀ (by norm_num), zpow_one]
  rw [hplace]
  linarith

/-- Squares of the ends of an interval around a positive root. -/
theorem sq_bounds {X w : K} (hw : w ≤ R) (h : |X - R| < w) :
    (X - w) ^ 2 < R ^ 2 ∧ R ^ 2 < (X + w) ^ 2 := by
  obtain ⟨hlow, hhigh⟩ := abs_lt.mp h
  exact ⟨sq_lt_sq' (by linarith) (by linarith), sq_lt_sq' (by linarith) (by linarith)⟩

end

/-- The square of a number of at most fifty digits has a root in whole units. -/
theorem guess_eq_of_square {half k : ℤ} {n : ℕ} (hn : n < 10 ^ 50)
    (hlow : 10 ^ half ≤ (n : ℚ) * 10 ^ k)
    (hwithin : Within ((n : ℚ) * 10 ^ k * 10 ^ (50 - half)) (39 / 50) h) :
    (h : ℚ) * 10 ^ (half - 50) = n * 10 ^ k ∧ half - 49 ≤ k := by
  have hk : half < k + 50 := by
    have hlt := hlow.trans_lt (lt_zpow_of_digitCount hn k)
    rwa [zpow_lt_zpow_iff_right₀ (by norm_num)] at hlt
  have hunits : (n : ℚ) * 10 ^ k * 10 ^ (50 - half) = (n * 10 ^ (k + 50 - half).toNat : ℕ) := by
    rw [mul_assoc, ← zpow_add₀ (by norm_num), Nat.cast_mul, cast_ten_pow,
      Int.toNat_of_nonneg (by omega)]
    congr 2
    ring
  refine ⟨?_, by omega⟩
  rw [hunits] at hwithin
  obtain ⟨hless, hmore⟩ := hwithin
  have heq : h = n * 10 ^ (k + 50 - half).toNat := by
    have h₁ : (h : ℚ) < (n * 10 ^ (k + 50 - half).toNat + 1 : ℕ) := by
      rw [Nat.cast_succ]
      linarith
    have h₂ : ((n * 10 ^ (k + 50 - half).toNat : ℕ) : ℚ) < (h + 1 : ℕ) := by
      rw [Nat.cast_succ]
      linarith
    have := Nat.cast_lt.mp h₁
    have := Nat.cast_lt.mp h₂
    omega
  rw [heq, ← hunits, mul_assoc, ← zpow_add₀ (by norm_num), show 50 - half + (half - 50) = 0 by ring,
    zpow_zero, mul_one]

/-- Square roots are off by less than a unit in the fiftieth digit of the scaled root. Those of
squares of numbers of at most fifty digits are exact, and the iteration ends by itself within
nineteen rounds. -/
theorem sqrt_accurate (ha : a.toRat? = some q) (hq : 0 < q)
    (hlow : Context.minExponent ≤ a.leadingExponent)
    (hhigh : a.leadingExponent ≤ Context.maxExponent) :
    ∃ r x, sqrt a = .ok r ∧ r.toRat? = some x ∧
      (x - 10 ^ (a.leadingExponent / 2 - 49)) ^ 2 < q ∧
      q < (x + 10 ^ (a.leadingExponent / 2 - 49)) ^ 2 ∧
      (∀ (n : ℕ) (k : ℤ), n < 10 ^ 50 → q = (n * 10 ^ k) ^ 2 → x = n * 10 ^ k) ∧
      ∃ m guess, Decimal.scale rootContext a (-2 * (a.leadingExponent / 2)) = .ok m ∧
        firstGuess m = .ok guess ∧
        ∀ steps, 19 ≤ steps → newton m steps guess = newton m maxRootSteps guess := by
  obtain ⟨half, hhalf⟩ : ∃ half, half = a.leadingExponent / 2 := ⟨_, rfl⟩
  obtain ⟨hy, hy'⟩ := mantissa_bounds ha hq
  rw [← hhalf] at hy hy' ⊢
  obtain ⟨x, h, m, guess, r, hx, hx', hclose, hhlow, -, hrest, hm, hguess, hnewton, hr, hvalue⟩ :=
    exists_sqrt ha hq hlow hhigh hhalf
  have hhalflow : -500000 ≤ half := by
    have : Context.minExponent = -999999 := rfl
    omega
  have hqlow : ((10 : ℚ) ^ half) ^ 2 ≤ q := by
    rw [neg_mul, zpow_neg, ← div_eq_mul_inv, le_div_iff₀ (ten_zpow_pos _), one_mul, two_mul,
      zpow_add₀ (by norm_num)] at hy
    rwa [sq]
  -- the root as a real number
  have hR : √(q : ℝ) ^ 2 = (q : ℝ) := Real.sq_sqrt (by exact_mod_cast hq.le)
  obtain ⟨hwithin, hhhigh⟩ :=
    within_root hx hx' hclose hy hy' hhlow hrest hR (Real.sqrt_nonneg _)
  have hwidth : (10 : ℝ) ^ (half - 49) ≤ √(q : ℝ) := by
    refine (zpow_le_zpow_right₀ (by norm_num) (by omega : half - 49 ≤ half)).trans ?_
    have hcast := (Rat.cast_le (K := ℝ)).mpr hqlow
    push_cast at hcast
    exact Real.le_sqrt_of_sq_le hcast
  obtain ⟨hbelow, habove⟩ := sq_bounds hwidth (abs_fit_sub_lt_of_within hwithin hhhigh hhalflow)
  rw [hR] at hbelow habove
  refine ⟨r, _, hr, hvalue, ?_, ?_, ?_, m, guess, hm, hguess, fun steps hsteps => ?_⟩
  · rw [← Rat.cast_lt (K := ℝ)]
    push_cast
    exact hbelow
  · rw [← Rat.cast_lt (K := ℝ)]
    push_cast
    exact habove
  · intro n k hn hsquare
    have hroot : ((n : ℚ) * 10 ^ k) ^ 2 = ((q : ℚ) : ℚ) := hsquare.symm
    have hnonneg : (0 : ℚ) ≤ n * 10 ^ k := mul_nonneg (Nat.cast_nonneg n) (ten_zpow_pos k).le
    obtain ⟨hwithin, -⟩ := within_root hx hx' hclose hy hy' hhlow hrest hroot hnonneg
    have hlow' : 10 ^ half ≤ (n : ℚ) * 10 ^ k := le_of_sq_le_sq (hsquare ▸ hqlow) hnonneg
    obtain ⟨hexact, hk⟩ := guess_eq_of_square hn hlow' hwithin
    have hfits : Context.working.Fits ((n : ℚ) * 10 ^ k) := by
      have htiny : Context.working.tiny = -1000048 := by decide
      exact ⟨n, k, by rw [Int.cast_natCast], hn, by omega⟩
    rw [hexact, hfits.fit_eq]
  · rw [hnewton steps hsteps, hnewton maxRootSteps (by decide)]

theorem sqrt_accurate_two :
    ∃ r x, sqrt (.ofNat 2) = .ok r ∧ r.toRat? = some x ∧
      (x - 10 ^ (-49 : ℤ)) ^ 2 < 2 ∧ 2 < (x + 10 ^ (-49 : ℤ)) ^ 2 := by
  have hplace : (Decimal.ofNat 2).leadingExponent / 2 - 49 = -49 := by decide
  obtain ⟨r, x, hr, hx, hlow, hhigh, -⟩ :=
    sqrt_accurate (Decimal.toRat?_ofNat 2) (by norm_num) (by decide) (by decide)
  rw [hplace] at hlow hhigh
  exact ⟨r, x, hr, hx, by exact_mod_cast hlow, by exact_mod_cast hhigh⟩

end Reckon.Numeric
