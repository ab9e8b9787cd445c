import Reckon.Proofs.AlikeValues

/-!
# Powers of ten

A power of ten with a small integer as its exponent is exact (`Numeric.power_ten`), and so is a
product with it of a number that has no more digits than are kept (`Binary.apply_times_power_ten`).
-/

namespace Reckon

namespace Decimal
variable {ctx : Context} {negative : Bool}

theorem digitCount_one : digitCount 1 = 1 := by decide

/-- A number with few digits far from the limits of the exponents is kept as it is. -/
theorem round_of_lt_pow {c : Nat} {e : Int} (hc : c < 10 ^ ctx.digits) (htiny : ctx.tiny ≤ e)
    (hmax : e + ctx.digits ≤ Context.maxExponent) :
    ctx.round negative c e = .ok (finite negative c e) := by
  by_cases hzero : c = 0
  · rw [hzero, Context.round, if_pos rfl, min_eq_left (by omega), max_eq_right htiny]
  have hcount := digitCount_le_of_lt_pow hzero hc
  rw [Context.round_of_lastPlace_le hzero, if_neg (by omega)]
  exact max_le htiny (by omega)

theorem powerBySquaring_ten (hdigits : 0 < ctx.digits) {e : Int} (he : e = 1 ∨ e = -1) {n : Nat}
    (hn : 0 < n) (htiny : ctx.tiny ≤ -n) (hmax : n + ctx.digits ≤ Context.maxExponent) :
    powerBySquaring ctx (finite false 1 e) n = .ok (finite false 1 (e * n)) := by
  have hone : 1 < 10 ^ ctx.digits := Nat.one_lt_pow hdigits.ne' (by decide)
  have hmul : ∀ k j : Int, (k + j).natAbs ≤ n →
      mul ctx (finite false 1 k) (finite false 1 j) = .ok (finite false 1 (k + j)) :=
    fun k j hle => round_of_lt_pow hone (by omega) (by omega)
  induction n using Nat.strong_induction_on with
  | _ n ih =>
    rw [powerBySquaring]
    split
    · rw [show n = 1 by omega, Nat.cast_one, mul_one]
    · have hhalf : ((n / 2 : Nat) : Int) = n / 2 := by omega
      rw [ih (n / 2) (by omega) (by omega) (by omega) (by omega) fun k j hle => hmul k j (by omega)]
      have hsquare :
          mul ctx (finite false 1 (e * (n / 2 : Nat))) (finite false 1 (e * (n / 2 : Nat))) =
            .ok (finite false 1 (2 * (e * (n / 2 : Nat)))) := by
        rw [hmul, two_mul]
        rcases he with rfl | rfl <;> omega
      change (mul ctx _ _ >>= fun square => if n % 2 = 1 then mul ctx square (finite false 1 e)
        else .ok square) = _
      rw [hsquare]
      change (if n % 2 = 1 then mul ctx (finite false 1 _) (finite false 1 e) else .ok _) = _
      split
      · rw [hmul]
        · congr 2
          rcases he with rfl | rfl <;> omega
        · rcases he with rfl | rfl <;> omega
      · congr 2
        rcases he with rfl | rfl <;> omega

theorem trimZeros_pow (n : Nat) : trimZeros (10 ^ n) n = (1, 0) := by
  induction n with
  | zero => rfl
  | succ n ih =>
    have hpow : 10 ^ (n + 1) % 10 = 0 ∧ 10 ^ (n + 1) / 10 = 10 ^ n := by
      rw [pow_succ]
      omega
    rw [trimZeros, if_pos hpow.1, hpow.2, ih]

theorem div_one_ten (hdigits : 0 < ctx.digits) (hsmall : ctx.digits ≤ 1000) :
    div ctx one (finite false 1 1) = .ok (finite false 1 (-1)) := by
  have hshift : (1 : Int) - 1 + ctx.digits + 1 = (ctx.digits + 1 : Nat) := by omega
  have hround : ctx.round false 1 (-1) = .ok (finite false 1 (-1)) :=
    round_of_lt_pow (Nat.one_lt_pow hdigits.ne' (by decide))
      (by simp only [Context.tiny, Context.minExponent]; omega)
      (by simp only [Context.maxExponent]; omega)
  have hdiv : div ctx one (finite false 1 1) = divCoefficients ctx false 1 1 (0 - 1) := rfl
  simp only [hdiv, divCoefficients, digitCount_one, Nat.cast_one, hshift, Int.toNat_natCast,
    Int.toNat_neg_natCast, tenTo_eq, pow_zero, Nat.one_mul, Nat.mod_one, Nat.div_one, ↓reduceIte,
    trimZeros_pow]
  rw [min_eq_right (by omega)]
  exact hround

theorem power_ten {k : Int} (hk : k ≠ 0) (hsmall : k.natAbs ≤ 1000) :
    power .working (finite false 1 1) k = .ok (finite false 1 k) := by
  have hround : ∀ j : Int, j.natAbs ≤ 1000 →
      Context.working.round false 1 j = .ok (finite false 1 j) := fun j hj =>
    round_of_lt_pow (by decide)
      (by simp only [Context.working, Context.tiny, Context.minExponent]; omega)
      (by simp only [Context.working, Context.maxExponent]; omega)
  have hcount : digitCount k.natAbs ≤ 4 :=
    digitCount_le_of_lt_pow (by omega) (by omega)
  have hunit : compareMagnitude 1 1 1 0 ≠ .eq := by decide
  rw [power]
  simp only [one_ne_zero, hk, hunit, ↓reduceIte, Bool.false_and]
  by_cases hneg : k < 0
  · have hpower := @powerBySquaring_ten ⟨Context.working.digits + digitCount k.natAbs + 2 + 1,
      .halfEven⟩ (by simp) (-1) (.inr rfl) k.natAbs (by omega)
      (by simp only [Context.working, Context.tiny, Context.minExponent]; omega)
      (by simp only [Context.working, Context.maxExponent]; omega)
    rw [if_pos hneg, div_one_ten (by simp) (by simp only [Context.working]; omega)]
    change (powerBySquaring _ (finite false 1 (-1)) k.natAbs >>= _) = _
    rw [hpower, show -1 * (k.natAbs : Int) = k by omega]
    exact hround k hsmall
  · have hpower := @powerBySquaring_ten ⟨Context.working.digits + digitCount k.natAbs + 2,
      .halfEven⟩ (by simp) 1 (.inl rfl) k.natAbs (by omega)
      (by simp only [Context.working, Context.tiny, Context.minExponent]; omega)
      (by simp only [Context.working, Context.maxExponent]; omega)
    rw [if_neg hneg, hpower, show 1 * (k.natAbs : Int) = k by omega]
    exact hround k hsmall

end Decimal

namespace Numeric

open Decimal

theorem isSmallInteger_natural (negative : Bool) {n : Nat} (hn : n ≤ maxExactExponent) :
    power.isSmallInteger (finite negative n 0) = .ok true := by
  have hround : Context.plain.round false n 0 = .ok (finite false n 0) := by
    refine round_of_lt_pow (hn.trans_lt (by decide)) (by decide) (by decide)
  have habs : abs .plain (finite negative n 0) = .ok (finite false n 0) := by
    cases negative with
    | false => exact hround
    | true => exact hround
  have hcompare : compareMagnitude n 0 maxExactExponent 0 ≠ .gt := by
    rw [compareMagnitude_eq_compare, ne_eq, compare_gt_iff_gt, not_lt, zpow_zero, mul_one, mul_one]
    exact_mod_cast hn
  have hmost : atMost (finite false n 0) (.ofNat maxExactExponent) = .ok true := by
    have hsome : compare? (finite false n 0) (.ofNat maxExactExponent) =
        some (compareMagnitude n 0 maxExactExponent 0) := by
      simp [compare?, ofNat, maxExactExponent]
    rw [atMost, order, hsome]
    cases hc : compareMagnitude n 0 maxExactExponent 0 with
    | gt => exact absurd hc hcompare
    | lt | eq => rfl
  rw [power.isSmallInteger, if_pos (by simp [isIntegral]), habs]
  change (liftM (atMost (finite false n 0) (.ofNat maxExactExponent)) : Except Failure Bool) = _
  rw [hmost]
  rfl

theorem power_ten [Binary64.Library] (negative : Bool) {n : Nat} (hn : n ≤ maxExactExponent) :
    ∃ r, power (.ofNat 10) (finite negative n 0) = .ok r ∧
      r.Alike (finite false 1 (signed negative n)) := by
  have hten : (finite false 1 1).Alike (.ofNat 10) := ⟨rfl, by norm_num⟩
  have hpower : power (finite false 1 1) (finite negative n 0) =
      .ok (finite false 1 (signed negative n)) := by
    rw [power]
    by_cases hn0 : n = 0
    · subst hn0
      cases negative <;> rfl
    · have htoInt : toInt (finite negative n 0) = signed negative n := by
        simp [toInt, magnitude]
      have hsign :
          power.isNegativePowerOfZero (finite false 1 1) (finite negative n 0) = .ok false := rfl
      have hzero : (finite negative n 0).isZero = false := by
        have hne : compareMagnitude n 0 0 0 ≠ .eq := by simp [compareMagnitude, hn0]
        cases negative <;> simp [isZero, same, compare?, zero, ofNat, hn0, hne]
      have hk : signed negative n ≠ 0 ∧ (signed negative n).natAbs ≤ 1000 := by
        have hn' : n ≤ 1000 := hn
        cases negative
        · rw [signed_false]
          omega
        · rw [signed_true]
          omega
      rw [hzero, hsign, isSmallInteger_natural negative hn, htoInt]
      change ((liftM (Decimal.power .working (finite false 1 1) (signed negative n)) :
        Except Failure Decimal) >>= _) = _
      rw [Decimal.power_ten hk.1 hk.2]
      rfl
  have hagree := agree_power hten (.refl (finite negative n 0))
  rw [hpower] at hagree
  cases hr : power (.ofNat 10) (finite negative n 0) with
  | error f =>
    rw [hr] at hagree
    cases hagree
  | ok r =>
    rw [hr] at hagree
    cases hagree with
    | ok h => exact ⟨r, rfl, h.symm⟩

end Numeric

open Decimal

/-- A product with a small power of ten moves the point. -/
theorem Binary.apply_times_power_ten [Binary64.Library] {negative : Bool} {c n : Nat} {e : Int}
    (hc : c < 10 ^ Context.working.digits) (he : e ≤ 0) (hsmall : -e ≤ 50)
    (hn : n ≤ Numeric.maxExactExponent) :
    AgreeValue
      (Binary.power.apply (.ofNat 10) (finite negative n 0) >>=
        Binary.times.apply (finite false c e))
      (.ok (finite false c (signed negative n + e))) := by
  obtain ⟨r, hr, halike⟩ := Numeric.power_ten negative hn
  have hround : mul .working (finite false c e) (finite false 1 (signed negative n)) =
      .ok (finite false c (signed negative n + e)) := by
    have hsigned : (signed negative n).natAbs ≤ 1000 := by
      have hn' : n ≤ 1000 := hn
      simp only [signed]
      split <;> omega
    rw [mul, Nat.mul_one, bne_self_eq_false, Int.add_comm]
    exact round_of_lt_pow hc
      (by simp only [Context.working, Context.tiny, Context.minExponent]; omega)
      (by simp only [Context.working, Context.maxExponent]; omega)
  have hpower : Binary.power.apply (.ofNat 10) (finite negative n 0) = .ok r := by
    rw [Binary.apply, Binary.numeric, hr]
    rfl
  have hagree := Binary.times.agree_apply (.refl (finite false c e)) halike
  have hproduct : Binary.times.apply (finite false c e) (finite false 1 (signed negative n)) =
      .ok (finite false c (signed negative n + e)) := by
    rw [Binary.apply, Binary.numeric, hround]
    rfl
  rw [hpower, ← hproduct]
  exact hagree

end Reckon
