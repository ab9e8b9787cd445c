import Reckon.Numeric.Root
import Reckon.Proofs.DecimalOrder
import Reckon.Proofs.NewtonSteps
import Reckon.Proofs.PowersOfTen
import Reckon.Proofs.RoundedTwice

/-!
# The steps of the square root

A guess for a square root is a whole number of units of the fiftieth place, `point g`. A step leads
to `point (rootStep x g)`: the quotient of `x` by the guess is rounded to sixty-two digits and then
to whole units, and the mean of both is rounded up. The iteration ends at a guess that a step leaves
where it is, or after the steps it is allowed (`newton_eq`).
-/

namespace Reckon

namespace Decimal
variable {ctx : Context} {d : Decimal} {x : ℚ} {t : ℤ}

/-- A positive number is moved to an exponent by rounding the number of its units. -/
theorem quantize_of_pos {n : ℕ} (hd : d.toRat? = some x) (hx : 0 < x)
    (hle : x ≤ n * 10 ^ t) (hn : n < 10 ^ ctx.digits) (htiny : ctx.tiny ≤ t)
    (hmax : t + ctx.digits ≤ Context.maxExponent) :
    quantize ctx d t = .ok (finite false (ctx.rounding.nearby false (x / 10 ^ t)) t) := by
  have hsign := isNegative_of_pos hd hx
  have hunit := ten_zpow_pos t
  cases d with
  | infinite | nan => cases hd
  | finite negative c e =>
    obtain rfl : negative = false := hsign
    rw [toRat?_finite, Option.some_inj, signed_false, Int.cast_natCast] at hd
    have hc : c ≠ 0 := by
      rintro rfl
      rw [Nat.cast_zero, zero_mul] at hd
      exact hx.ne hd
    obtain ⟨m, hcount, hlow, -⟩ := exists_digitCount hc
    have hfirst : e + m < t + ctx.digits := by
      have hlt : (10 : ℚ) ^ (e + m) < 10 ^ (t + ctx.digits) :=
        calc (10 : ℚ) ^ (e + m) ≤ c * 10 ^ e := zpow_le_of_digitCount hlow e
          _ ≤ n * 10 ^ t := hd ▸ hle
          _ < 10 ^ (t + ctx.digits) := lt_zpow_of_digitCount hn t
      rwa [zpow_lt_zpow_iff_right₀ (by norm_num)] at hlt
    have hvalue : x / 10 ^ t =
        ((c * 10 ^ (e - t).toNat : ℕ) : ℚ) / (10 ^ (-(e - t)).toNat : ℕ) := by
      have hpow := cast_pow_toNat (e - t)
      rw [eq_div_iff (by exact_mod_cast (pow_toNat_pos _).ne'), ← hd, Nat.cast_mul, hpow,
        zpow_sub₀ (by norm_num)]
      field_simp
    have hkept : ctx.rounding.nearby false (x / 10 ^ t) ≤ n :=
      Rounding.nearby_le (div_pos hx hunit).le ((div_le_iff₀ hunit).mpr hle)
    rw [quantize_finite e t hc, if_neg (by omega), ← Rounding.nearby_div _ _ _ (pow_toNat_pos _),
      ← hvalue]
    exact round_of_lt_pow (hkept.trans_lt hn) htiny hmax

end Decimal

namespace Numeric

open Decimal (signed)

/-- The last place of a guess. -/
def rootUnit : ℚ :=
  10 ^ (-rootPlaces : ℤ)

theorem rootUnit_pos : 0 < rootUnit :=
  ten_zpow_pos _

theorem rootUnit_eq : rootUnit = 1 / 10 ^ 50 := by
  norm_num [rootUnit, rootPlaces]

/-- A whole number of units. -/
def point (g : ℕ) : Decimal :=
  .finite false g (-rootPlaces)

theorem toRat?_point (g : ℕ) : (point g).toRat? = some ((g : ℚ) * rootUnit) := by
  rw [point, Decimal.toRat?_finite, Decimal.signed_false, Int.cast_natCast, rootUnit]

/-- Whole numbers of units are held. -/
theorem holds_point {n : ℕ} (hn : n < 10 ^ 62) : rootContext.Holds ((n : ℚ) * rootUnit) :=
  Context.holds_of_lt_pow hn (by decide) (by decide)

/-- And so are halves of them. -/
theorem holds_half_point {n : ℕ} (hn : n < 10 ^ 61) :
    rootContext.Holds ((n : ℚ) * rootUnit / 2) := by
  have hhalf : (n : ℚ) * rootUnit / 2 = (5 * n : ℕ) * 10 ^ (-51 : ℤ) := by
    rw [rootUnit_eq]
    norm_num
    ring
  rw [hhalf]
  exact Context.holds_of_lt_pow (show 5 * n < 10 ^ 62 by omega) (by decide) (by decide)

theorem nearby_half (n : ℕ) : Rounding.halfUp.nearby false ((n : ℚ) / 2) = (n + 1) / 2 := by
  have h := Rounding.halfUp.nearby_div false n two_pos
  rw [Nat.cast_two] at h
  rw [h]
  simp only [Rounding.quotient]
  split_ifs <;> omega

/-- The quotient of a number by a guess, in whole units. -/
def rootQuotient (x : ℚ) (g : ℕ) : ℕ :=
  rootContext.rounding.nearby false (rootContext.fit (x / (g * rootUnit)) / rootUnit)

/-- The next guess. -/
def rootStep (x : ℚ) (g : ℕ) : ℕ :=
  (rootQuotient x g + g + 1) / 2

variable {m guess : Decimal} {x : ℚ} {g n : ℕ}

/-- A guess is at least one and at most a hundred. -/
theorem one_le_mul_rootUnit (hg : 10 ^ 50 ≤ g) : 1 ≤ (g : ℚ) * rootUnit := by
  have hcast : (10 : ℚ) ^ 50 ≤ g := by exact_mod_cast hg
  rw [rootUnit_eq, mul_one_div, le_div_iff₀ (by positivity)]
  linarith

theorem mul_rootUnit_le_hundred (hg : g ≤ 10 ^ 52) : (g : ℚ) * rootUnit ≤ 100 := by
  have hcast : (g : ℚ) ≤ 10 ^ 52 := by exact_mod_cast hg
  rw [rootUnit_eq, mul_one_div, div_le_iff₀ (by positivity)]
  linarith

/-- Moved to the last place of a guess, a number is rounded to whole units. -/
theorem quantize_rootUnit {d : Decimal} {y : ℚ} (hd : d.toRat? = some y) (hy : 0 < y)
    (hle : y ≤ 100) : Decimal.quantize rootContext d (-rootPlaces) =
      .ok (point (rootContext.rounding.nearby false (y / rootUnit))) := by
  refine Decimal.quantize_of_pos (n := 10 ^ 52) hd hy ?_ (by decide) (by decide) (by decide)
  rw [← rootUnit, rootUnit_eq]
  norm_num
  exact hle

theorem quotient_le (hx : x ≤ 100) (hg : 10 ^ 50 ≤ g) : x / (g * rootUnit) ≤ 10 ^ (2 : ℤ) := by
  have hlow := one_le_mul_rootUnit hg
  rw [div_le_iff₀ (zero_lt_one.trans_le hlow)]
  norm_num
  linarith

theorem quotient_pos (hx : 1 ≤ x) (hg : 10 ^ 50 ≤ g) : 0 < x / (g * rootUnit) :=
  div_pos (zero_lt_one.trans_le hx) (zero_lt_one.trans_le (one_le_mul_rootUnit hg))

theorem abs_quotient_le (hx : 1 ≤ x) (hx' : x ≤ 100) (hg : 10 ^ 50 ≤ g) :
    |x / (g * rootUnit)| ≤ 10 ^ (2 : ℤ) := by
  rw [abs_of_pos (quotient_pos hx hg)]
  exact quotient_le hx' hg

/-- The quotient in whole units is half a unit off, and what rounding to sixty-two digits adds. -/
theorem abs_rootQuotient_sub_le (hx : 1 ≤ x) (hx' : x ≤ 100) (hg : 10 ^ 50 ≤ g) :
    |(rootQuotient x g : ℚ) - x * 10 ^ 100 / g| ≤ 1 / 2 + 1 / 10 ^ 9 := by
  obtain ⟨y, hy⟩ : ∃ y, y = x / (g * rootUnit) := ⟨_, rfl⟩
  have hpos : 0 < y := hy ▸ quotient_pos hx hg
  have hunit := rootUnit_pos
  have hgpos : (0 : ℚ) < g := by exact_mod_cast (show 0 < g by omega)
  have hrounded : |rootContext.fit y - y| ≤ 1 / 10 ^ 9 * rootUnit := by
    have hlt : |y| < 10 ^ (2 + 1 : ℤ) := by
      rw [hy]
      exact (abs_quotient_le hx hx' hg).trans_lt (by norm_num)
    refine (Context.abs_fit_sub_le_zpow (.inr rfl) (by decide) hlt).trans ?_
    rw [rootUnit_eq]
    norm_num [rootContext]
  have hnearest : |(rootQuotient x g : ℚ) - rootContext.fit y / rootUnit| ≤ 1 / 2 := by
    rw [rootQuotient, ← hy]
    exact Rounding.IsNearest.abs_nearby_sub_le (.inr rfl) false
      (div_nonneg (Context.fit_nonneg hpos.le) hunit.le)
  have hexact : x * 10 ^ 100 / g = y / rootUnit := by
    rw [hy, rootUnit_eq]
    field_simp
  have hbehind : |rootContext.fit y / rootUnit - y / rootUnit| ≤ 1 / 10 ^ 9 := by
    rwa [← sub_div, abs_div, abs_of_pos hunit, div_le_iff₀ hunit]
  rw [hexact]
  exact (abs_sub_le _ (rootContext.fit y / rootUnit) _).trans (add_le_add hnearest hbehind)

theorem fit_quotient_le (hx : 1 ≤ x) (hx' : x ≤ 100) (hg : 10 ^ 50 ≤ g) :
    rootContext.fit (x / (g * rootUnit)) ≤ 100 := by
  have h : |rootContext.fit (x / (g * rootUnit))| ≤ 10 ^ (2 : ℤ) :=
    Context.abs_fit_le_zpow (by decide) (by decide) (abs_quotient_le hx hx' hg)
  exact (le_abs_self _).trans (h.trans_eq (by norm_num))

theorem rootQuotient_le (hx : 1 ≤ x) (hx' : x ≤ 100) (hg : 10 ^ 50 ≤ g) :
    rootQuotient x g ≤ 10 ^ 52 := by
  have hpos := quotient_pos hx hg
  refine Rounding.nearby_le (div_nonneg (Context.fit_nonneg hpos.le) rootUnit_pos.le) ?_
  rw [div_le_iff₀ rootUnit_pos]
  refine (fit_quotient_le hx hx' hg).trans ?_
  rw [rootUnit_eq]
  norm_num

theorem le_quotient (hx : 1 ≤ x) (hg : 10 ^ 50 ≤ g) (hg' : g ≤ 10 ^ 52) :
    10 ^ (-2 : ℤ) ≤ x / (g * rootUnit) := by
  have hhigh := mul_rootUnit_le_hundred hg'
  rw [le_div_iff₀ (zero_lt_one.trans_le (one_le_mul_rootUnit hg))]
  norm_num
  linarith

/-- The quotient by a guess is rounded twice. -/
theorem exists_quotient (hm : m.toRat? = some x) (hx : 1 ≤ x) (hx' : x ≤ 100) (hg : 10 ^ 50 ≤ g)
    (hg' : g ≤ 10 ^ 52) (hguess : guess.toRat? = some ((g : ℚ) * rootUnit)) :
    ∃ d, Decimal.div rootContext m guess = .ok d ∧
      Decimal.quantize rootContext d (-rootPlaces) = .ok (point (rootQuotient x g)) := by
  have hne : (g : ℚ) * rootUnit ≠ 0 := (zero_lt_one.trans_le (one_le_mul_rootUnit hg)).ne'
  have hdiv : rootContext.Rounds _ (Decimal.div rootContext m guess) :=
    Decimal.rounds_div (by decide) hm hguess hne
  obtain ⟨d, hd, hvalue⟩ :=
    hdiv.exists_of_le (by decide) (by decide) (by decide) (abs_quotient_le hx hx' hg)
  refine ⟨d, hd, quantize_rootUnit hvalue ?_ (fit_quotient_le hx hx' hg)⟩
  exact (ten_zpow_pos (-2)).trans_le
    (Context.zpow_le_fit (by decide) (by decide) (le_quotient hx hg hg'))

/-- The mean of two guesses is exact before it is rounded to whole units. -/
theorem exists_mean {q : ℕ} (hq : q ≤ 10 ^ 52) (hg : 10 ^ 50 ≤ g) (hg' : g ≤ 10 ^ 52)
    (hguess : guess.toRat? = some ((g : ℚ) * rootUnit)) :
    ∃ s h, Decimal.add rootContext (point q) guess = .ok s ∧
      Decimal.div rootContext s .two = .ok h ∧
      Decimal.quantize rootContext h (-rootPlaces) = .ok (point ((q + g + 1) / 2)) := by
  have hadd : rootContext.Rounds _ (Decimal.add rootContext (point q) guess) :=
    Decimal.rounds_add (by decide) (toRat?_point q) hguess
  rw [← add_mul, ← Nat.cast_add] at hadd
  obtain ⟨s, hs, hsvalue⟩ := hadd.exact (holds_point (by omega))
  have hdiv : rootContext.Rounds _ (Decimal.div rootContext s .two) :=
    Decimal.rounds_div (by decide) hsvalue (Decimal.toRat?_ofNat 2) two_ne_zero
  obtain ⟨h, hh, hvalue⟩ := hdiv.exact (holds_half_point (by omega))
  refine ⟨s, h, hs, hh, ?_⟩
  have hcast : (10 : ℚ) ^ 50 ≤ (q + g : ℕ) := by exact_mod_cast (by omega : 10 ^ 50 ≤ q + g)
  have hcast' : ((q + g : ℕ) : ℚ) ≤ 2 * 10 ^ 52 := by
    exact_mod_cast (by omega : q + g ≤ 2 * 10 ^ 52)
  have hunits : ((q + g : ℕ) : ℚ) * rootUnit / 2 / rootUnit = (q + g : ℕ) / 2 := by
    have := rootUnit_pos.ne'
    field_simp
  rw [← nearby_half, ← hunits]
  refine quantize_rootUnit hvalue ?_ ?_
  · rw [rootUnit_eq]
    linarith
  · rw [rootUnit_eq]
    linarith

/-- A step leads from one whole number of units to another. -/
theorem improve_eq (hm : m.toRat? = some x) (hx : 1 ≤ x) (hx' : x ≤ 100) (hg : 10 ^ 50 ≤ g)
    (hg' : g ≤ 10 ^ 52) (hguess : guess.toRat? = some ((g : ℚ) * rootUnit)) :
    improve m guess = .ok (point (rootStep x g)) := by
  obtain ⟨d, hd, hother⟩ := exists_quotient hm hx hx' hg hg' hguess
  obtain ⟨s, h, hs, hh, hmean⟩ := exists_mean (rootQuotient_le hx hx' hg) hg hg' hguess
  rw [improve, hd]
  change (Decimal.quantize rootContext d (-rootPlaces) >>= _) = _
  rw [hother]
  change (Decimal.add rootContext (point (rootQuotient x g)) guess >>= _) = _
  rw [hs]
  change (Decimal.div rootContext s .two >>= _) = _
  rw [hh]
  exact hmean

/-! ### The iteration -/

/-- Rounded three times, a small error stays small. -/
theorem fit_error_lt_one {y : ℚ} (hy : |y| ≤ 10 ^ (4 : ℤ)) (hclose : |x - y| ≤ 1 / 100) :
    rootContext.fit |rootContext.fit (x - rootContext.fit y)| < 1 := by
  have hrounded : |rootContext.fit y - y| ≤ 1 / 100 := by
    have hlt : |y| < 10 ^ (4 + 1 : ℤ) := hy.trans_lt (by norm_num)
    refine (Context.abs_fit_sub_le_zpow (.inr rfl) (by decide) hlt).trans ?_
    norm_num [rootContext]
  have htenth : |x - rootContext.fit y| ≤ 10 ^ (-1 : ℤ) := by
    have h := abs_sub_le x y (rootContext.fit y)
    rw [abs_sub_comm y] at h
    norm_num
    linarith
  have hfirst : |rootContext.fit (x - rootContext.fit y)| ≤ 10 ^ (-1 : ℤ) :=
    Context.abs_fit_le_zpow (by decide) (by decide) htenth
  have hsecond : |rootContext.fit _| ≤ 10 ^ (-1 : ℤ) :=
    Context.abs_fit_le_zpow (by decide) (by decide) ((abs_abs _).trans_le hfirst)
  exact (le_abs_self _).trans_lt (hsecond.trans_lt (by norm_num))

/-- Whether the square of a guess is less than one off is found out. -/
theorem exists_small_error (hm : m.toRat? = some x) (hx : 1 ≤ x) (hx' : x ≤ 100)
    (hg : 10 ^ 50 ≤ g) (hg' : g ≤ 10 ^ 52) : ∃ square error size small,
      Decimal.mul rootContext (point g) (point g) = .ok square ∧
      Decimal.sub rootContext m square = .ok error ∧
      Decimal.abs rootContext error = .ok size ∧ size.less .one = .ok small ∧
      (|x - (g * rootUnit) ^ 2| ≤ 1 / 100 → small = true) := by
  have hlow := one_le_mul_rootUnit hg
  have hhigh := mul_rootUnit_le_hundred hg'
  obtain ⟨y, hy⟩ : ∃ y, y = (g : ℚ) * rootUnit * (g * rootUnit) := ⟨_, rfl⟩
  have hmul : rootContext.Rounds _ (Decimal.mul rootContext (point g) (point g)) :=
    Decimal.rounds_mul (by decide) (toRat?_point g) (toRat?_point g)
  have hsquare : |y| ≤ 10 ^ (4 : ℤ) := by
    rw [hy, abs_of_nonneg (by positivity)]
    norm_num
    nlinarith
  rw [← hy] at hmul
  obtain ⟨square, hsq, hsqvalue⟩ :=
    hmul.exists_of_le (by decide) (by decide) (by decide) hsquare
  have hsub : rootContext.Rounds _ (Decimal.sub rootContext m square) :=
    Decimal.rounds_sub (by decide) hm hsqvalue
  have herror : |x - rootContext.fit y| ≤ 10 ^ (5 : ℤ) := by
    have h : |rootContext.fit y| ≤ 10 ^ (4 : ℤ) :=
      Context.abs_fit_le_zpow (by decide) (by decide) hsquare
    rw [abs_le] at h ⊢
    norm_num at h ⊢
    constructor <;> linarith [h.1, h.2]
  obtain ⟨error, herr, hervalue⟩ :=
    hsub.exists_of_le (by decide) (by decide) (by decide) herror
  have habs : rootContext.Rounds _ (Decimal.abs rootContext error) :=
    Decimal.rounds_abs (by decide) hervalue
  obtain ⟨size, hsize, hsizevalue⟩ := habs.exists_of_le (by decide) (by decide) (by decide)
    ((abs_abs _).trans_le (Context.abs_fit_le_zpow (by decide) (by decide) herror))
  refine ⟨square, error, size, _, hsq, herr, hsize,
    Decimal.less_eq_decide hsizevalue Decimal.toRat?_one, fun hclose => decide_eq_true ?_⟩
  exact fit_error_lt_one hsquare (by rwa [hy, ← sq])

theorem same_point_iff {h : ℕ} (hguess : guess.toRat? = some ((g : ℚ) * rootUnit)) :
    guess.same (point h) = true ↔ g = h := by
  rw [Decimal.same_eq_true_iff hguess (toRat?_point h), mul_left_inj' rootUnit_pos.ne',
    Nat.cast_inj]

/-- One round of the iteration ends it at a guess that the step leaves where it is, or goes on with
the next guess. Near the root it does end there. -/
theorem newton_succ (hm : m.toRat? = some x) (hx : 1 ≤ x) (hx' : x ≤ 100) (hg : 10 ^ 50 ≤ g)
    (hg' : g ≤ 10 ^ 52) (hguess : guess.toRat? = some ((g : ℚ) * rootUnit))
    (hnext : 10 ^ 50 ≤ rootStep x g) (hnext' : rootStep x g ≤ 10 ^ 52) (steps : ℕ) :
    newton m (steps + 1) guess = .ok (point g) ∧ rootStep x g = g ∨
      newton m (steps + 1) guess = newton m steps (point (rootStep x g)) ∧
        (rootStep x g = g → 1 / 100 < |x - (g * rootUnit) ^ 2|) := by
  obtain ⟨square, error, size, small, hsquare, herror, hsize, hless, hsmall⟩ :=
    exists_small_error hm hx hx' hnext hnext'
  have hround : newton m (steps + 1) guess =
      if guess.same (point (rootStep x g)) then
        if small then .ok (point (rootStep x g)) else newton m steps (point (rootStep x g))
      else newton m steps (point (rootStep x g)) := by
    rw [newton, improve_eq hm hx hx' hg hg' hguess]
    change (Decimal.mul rootContext _ _ >>= fun s => Decimal.sub rootContext m s >>= _) = _
    rw [hsquare]
    change (Decimal.sub rootContext m square >>= _) = _
    rw [herror]
    split
    · change (Decimal.abs rootContext error >>= fun size => size.less .one >>= _) = _
      rw [hsize]
      change (size.less .one >>= _) = _
      rw [hless]
      rfl
    · rfl
  rw [hround]
  split
  · rename_i hsame
    have heq := (same_point_iff hguess).mp hsame
    rw [← heq] at hsmall ⊢
    split
    · exact .inl ⟨rfl, rfl⟩
    · rename_i hlarge
      exact .inr ⟨rfl, fun _ => not_le.mp (mt hsmall hlarge)⟩
  · rename_i hdiffer
    exact .inr ⟨rfl, fun heq => absurd ((same_point_iff hguess).mpr heq.symm) hdiffer⟩

/-- The iteration ends at the guess that the steps come to rest at. -/
theorem newton_eq (hm : m.toRat? = some x) (hx : 1 ≤ x) (hx' : x ≤ 100)
    (hrange : ∀ g, 10 ^ 50 ≤ g → g ≤ 10 ^ 52 → 10 ^ 50 ≤ rootStep x g ∧ rootStep x g ≤ 10 ^ 52)
    (k steps : ℕ) (hg : 10 ^ 50 ≤ g) (hg' : g ≤ 10 ^ 52)
    (hguess : guess.toRat? = some ((g : ℚ) * rootUnit)) {h : ℕ} (hh : (rootStep x)^[k] g = h)
    (hrest : rootStep x h = h) (hclose : |x - (h * rootUnit) ^ 2| ≤ 1 / 100) :
    newton m (k + steps + 1) guess = .ok (point h) := by
  obtain ⟨hnext, hnext'⟩ := hrange g hg hg'
  induction k generalizing g guess with
  | zero =>
    obtain rfl : g = h := hh
    rcases newton_succ hm hx hx' hg hg' hguess hnext hnext' (0 + steps) with ⟨hend, -⟩ | ⟨-, hfar⟩
    · exact hend
    · exact absurd hclose (hfar hrest).not_ge
  | succ k ih =>
    rcases newton_succ hm hx hx' hg hg' hguess hnext hnext' (k + 1 + steps) with
      ⟨hend, hfixed⟩ | ⟨hgo, -⟩
    · rw [Function.iterate_fixed hfixed] at hh
      rw [hend, hh]
    · obtain ⟨hnext₂, hnext₂'⟩ := hrange _ hnext hnext'
      rw [hgo, show k + 1 + steps = k + steps + 1 by omega]
      exact ih hnext hnext' (toRat?_point _) hh hnext₂ hnext₂'

end Numeric

end Reckon
