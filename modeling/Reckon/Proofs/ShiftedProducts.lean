import Reckon.Proofs.Phrase
import Reckon.Proofs.PowersOfTen
import Reckon.Proofs.RoundedOnce

/-!
# Products with a shifted factor

A power of ten moves the point and leaves the digits alone, before rounding as well as after it
(`Context.rounded_mul_zpow`), as long as no number is too small to have all its digits. So the power
may be multiplied in last (`Binary.agree_times_power_ten`).
-/

namespace Reckon

open Decimal

namespace Context
variable {ctx : Context} {negative : Bool} {x : ℚ} {k : Int}

/-- Numbers from this one on keep as many digits as there are. -/
def IsNormal (x : ℚ) : Prop :=
  10 ^ minExponent ≤ x

theorem isNormal_of_one_le (hx : 1 ≤ x) : IsNormal x :=
  (zpow_le_one_of_nonpos₀ (by norm_num) (by decide)).trans hx

theorem place_of_isNormal (hx : IsNormal x) : ctx.place x = Int.log 10 x - ctx.digits + 1 := by
  have hlog : minExponent ≤ Int.log 10 x :=
    (Int.zpow_le_iff_le_log (b := 10) (by decide) ((ten_zpow_pos _).trans_le hx)).mp hx
  rw [place, lastPlace, tiny]
  omega

theorem log_mul_zpow (hx : 0 < x) (k : Int) : Int.log 10 (x * 10 ^ k) = Int.log 10 x + k := by
  have hpos := ten_zpow_pos k
  refine log_eq_of_zpow ?_ ?_
  · rw [zpow_add₀ (by norm_num)]
    exact mul_le_mul_of_nonneg_right (zpow_log_le hx) hpos.le
  · rw [add_right_comm, zpow_add₀ (by norm_num)]
    exact mul_lt_mul_of_pos_right (lt_zpow_log_add_one x) hpos

/-- Rounding keeps the same digits when the point has moved. -/
theorem rounded_mul_zpow (hx : IsNormal x) (hk : IsNormal (x * 10 ^ k)) :
    ctx.rounded negative (x * 10 ^ k) = ctx.rounded negative x * 10 ^ k := by
  have hplace : ctx.place (x * 10 ^ k) = ctx.place x + k := by
    rw [place_of_isNormal hk, place_of_isNormal hx, log_mul_zpow ((ten_zpow_pos _).trans_le hx)]
    ring
  have hkept : ctx.kept negative (x * 10 ^ k) = ctx.kept negative x := by
    rw [kept, kept, hplace, zpow_add₀ (by norm_num), mul_div_mul_right _ _ (ten_zpow_pos k).ne']
  rw [rounded, rounded, hkept, hplace, zpow_add₀ (by norm_num), mul_assoc]

/-- A number may be rounded before the point is moved. -/
theorem agree_hold_mul_zpow (hctx : 0 < ctx.digits)
    (hx : ctx.rounded negative x = x ∨ IsNormal x ∧ IsNormal (x * 10 ^ k)) :
    AgreeDecimal (ctx.hold negative (ctx.rounded negative x * 10 ^ k))
      (ctx.hold negative (x * 10 ^ k)) := by
  rcases hx with hexact | ⟨hx, hk⟩
  · rw [hexact]
    exact .refl (fun _ => rfl) .refl _
  rw [← rounded_mul_zpow hx hk]
  have htwice : ctx.rounded negative (ctx.rounded negative (x * 10 ^ k)) =
      ctx.rounded negative (x * 10 ^ k) := by
    have hnonneg : 0 ≤ x * 10 ^ k := (ten_zpow_pos _).le.trans hk
    have h := @Fits.rounded_eq ctx negative _ (fits_rounded hctx negative hnonneg)
    rwa [abs_of_nonneg (rounded_nonneg ctx negative _)] at h
  rw [hold, hold, htwice]
  split
  · exact .ok ⟨rfl, htwice⟩
  · exact .error rfl

/-- The number is not rounded, or neither it nor what it is when the point has moved is too small to
have all its digits. -/
def MayShift (ctx : Context) (q : ℚ) (k : Int) : Prop :=
  ctx.Fits q ∨ IsNormal |q| ∧ IsNormal (|q| * 10 ^ k)

end Context

namespace Decimal
variable {ctx : Context} {a : Decimal} {m n : Bool} {c d : Nat} {e f k : Int}

/-- A power of ten may be multiplied in last. -/
theorem agree_round_mul_zpow (hctx : 0 < ctx.digits)
    (hover : ctx.round n c e ≠ .error .overflow)
    (hshift : ctx.MayShift (signed n c * 10 ^ e) k) :
    AgreeDecimal (ctx.round n c e >>= fun b => mul ctx b (finite false 1 k))
      (ctx.round n c (e + k)) := by
  obtain ⟨x, hx⟩ : ∃ x : ℚ, x = c * 10 ^ e := ⟨_, rfl⟩
  have habs : |(signed n c : ℚ) * 10 ^ e| = x := by
    have hsigned : |(signed n c : ℚ)| = c := by cases n <;> simp [signed]
    rw [hx, abs_mul, abs_of_pos (ten_zpow_pos e), hsigned]
  have hmoved : (c : ℚ) * 10 ^ (e + k) = x * 10 ^ k := by
    rw [hx, zpow_add₀ (by norm_num), mul_assoc]
  have hkept : ctx.rounded n x = x ∨ Context.IsNormal x ∧ Context.IsNormal (x * 10 ^ k) := by
    rw [← habs]
    exact hshift.imp_left Context.Fits.rounded_eq
  have hfirst := Context.agree_round_hold hctx n c e
  have hlast := Context.agree_round_hold hctx n c (e + k)
  rw [← hx, Context.hold] at hfirst
  rw [hmoved] at hlast
  cases hround : ctx.round n c e with
  | error s =>
    rw [hround] at hfirst
    split at hfirst
    · cases hfirst
    · cases hfirst with
      | error h => exact absurd (hround.trans (congrArg _ h)) hover
  | ok b =>
    rw [hround] at hfirst
    split at hfirst
    swap
    · cases hfirst
    cases hfirst with
    | ok halike =>
      -- what is kept of the first number is multiplied exactly and rounded again
      have hagain := Context.agree_round_hold hctx n (ctx.kept n x) (ctx.place x + k)
      rw [zpow_add₀ (by norm_num), ← mul_assoc] at hagain
      have hexact : mul ctx (finite n (ctx.kept n x) (ctx.place x)) (finite false 1 k) =
          ctx.round n (ctx.kept n x) (ctx.place x + k) := by
        rw [mul, Bool.bne_false, Nat.mul_one]
      have hproduct := @agree_mul ctx _ _ _ _ halike (.refl (finite false 1 k))
      rw [hexact] at hproduct
      exact (hproduct.trans hagain).trans
        ((Context.agree_hold_mul_zpow hctx hkept).trans (hlast.symm fun _ _ => Eq.symm))

theorem agree_mul_mul_zpow (hctx : 0 < ctx.digits)
    (hover : mul ctx a (finite n c e) ≠ .error .overflow)
    (hshift : ∀ q, a.toRat? = some q → ctx.MayShift (q * (signed n c * 10 ^ e)) k) :
    AgreeDecimal (mul ctx a (finite n c e) >>= fun b => mul ctx b (finite false 1 k))
      (mul ctx a (finite n c (e + k))) := by
  cases a with
  | nan => exact .ok rfl
  | infinite m =>
    rw [mul, mul]
    split
    · exact .error rfl
    · change AgreeDecimal (mul ctx (infinite (m != n)) (finite false 1 k)) _
      rw [mul, Bool.bne_false]
      exact .ok rfl
  | finite m d f =>
    have hvalue := hshift _ rfl
    rw [mul] at hover
    rw [mul, mul, ← add_assoc]
    refine agree_round_mul_zpow hctx hover ?_
    rw [signed_bne_mul, zpow_add₀ (by norm_num), Int.cast_mul, mul_mul_mul_comm]
    exact hvalue

end Decimal

/-- A product that is multiplied by a small power of ten is the product with a shifted factor, in
whatever form that is. -/
theorem Binary.agree_times_power_ten [Binary64.Library] {a d : Decimal} {m negative : Bool}
    {c n : Nat} {e : Int} (hn : n ≤ Numeric.maxExactExponent)
    (hover : Binary.times.apply a (finite m c e) ≠ .error (.undefined (.tooLarge "*")))
    (hshift : ∀ q, a.toRat? = some q →
      Context.working.MayShift (q * (signed m c * 10 ^ e)) (signed negative n))
    (hd : (finite m c (e + signed negative n)).Alike d) :
    AgreeValue
      (Binary.times.apply a (finite m c e) >>= fun b =>
        Binary.power.apply (.ofNat 10) (finite negative n 0) >>= Binary.times.apply b)
      (Binary.times.apply a d) := by
  obtain ⟨r, hr, halike⟩ := Numeric.power_ten negative hn
  have hpower : Binary.power.apply (.ofNat 10) (finite negative n 0) = .ok r := by
    rw [Binary.apply, Binary.numeric, hr]
    rfl
  have happly : ∀ x : Decimal, Binary.times.apply a x =
      ((mul .working a x).mapError Failure.signal).mapError
        (fun f => f.within Binary.times.name) := fun x => rfl
  have hover' : mul .working a (finite m c e) ≠ .error .overflow := by
    intro h
    rw [happly, h] at hover
    exact hover rfl
  have hproduct := (agree_mul_mul_zpow (by decide) hover' hshift).trans (agree_mul (.refl a) hd)
  rw [hpower, happly]
  cases hmul : mul .working a (finite m c e) with
  | error s =>
    rw [hmul] at hproduct
    exact agree_mapError_within _ (agree_mapError_signal hproduct)
  | ok b =>
    rw [hmul] at hproduct
    have h := (agree_mul (.refl b) halike).trans hproduct
    exact agree_mapError_within _ (agree_mapError_signal h)

/-! ### Numbers behind a sign -/

namespace Decimal

/-- Zero changes no number but the negative zero. -/
theorem agree_zero_add {ctx : Context} (hctx : 0 < ctx.digits) {n : Bool} {c : Nat} (e : Int)
    (hzero : n = true → c ≠ 0) :
    AgreeDecimal (add ctx zero (finite n c e)) (ctx.round n c e) := by
  have hsum : (exactSum false 0 0 n c e : ℚ) * 10 ^ min 0 e = (signed n c : ℤ) * 10 ^ e := by
    rw [exactSum_mul_zpow, signed_false, Nat.cast_zero, Int.cast_zero, zero_mul, zero_add]
  have hsign : sumSign false n (signed n c) = n := by
    cases n with
    | false => simp [sumSign, signed]
    | true =>
      have hpos := Nat.pos_of_ne_zero (hzero rfl)
      simp [sumSign, signed]
      omega
  have habs : (signed n c).natAbs = c := by cases n <;> simp [signed]
  have h := (agree_add_finite hctx false 0 0 n c e).trans (agree_round_sum hsum)
  rwa [hsign, habs] at h

end Decimal

/-- A sign in front of a number that is held makes the number with the sign. -/
theorem Binary.exists_apply_sign [Binary64.Library] {op : Binary} (hop : op.isSign = true) {c : Nat}
    {e : Int} (hc : c < 10 ^ Context.working.digits) (htiny : Context.working.tiny ≤ e)
    (hmax : e + Context.working.digits ≤ Context.maxExponent) (hzero : op = .minus → c ≠ 0) :
    ∃ d, op.apply .zero (finite false c e) = .ok d ∧
      (Formula.signedValue op (finite false c e)).Alike d := by
  have hadd : ∀ n : Bool, (n = true → c ≠ 0) →
      ∃ d, add .working .zero (finite n c e) = .ok d ∧ (finite n c e).Alike d := by
    intro n hn
    have h := @agree_zero_add .working (by decide) n c e hn
    rw [round_of_lt_pow hc htiny hmax] at h
    cases hsum : add .working .zero (finite n c e) with
    | ok d =>
      rw [hsum] at h
      cases h with
      | ok halike => exact ⟨d, rfl, halike.symm⟩
    | error f =>
      rw [hsum] at h
      cases h
  cases op with
  | plus =>
    obtain ⟨d, hd, halike⟩ := hadd false fun h => by cases h
    exact ⟨d, by rw [Binary.apply, Binary.numeric, hd]; rfl, halike⟩
  | minus =>
    obtain ⟨d, hd, halike⟩ := hadd true fun _ => hzero rfl
    refine ⟨d, ?_, halike⟩
    rw [Binary.apply, Binary.numeric, sub, Decimal.flip, Bool.not_false, hd]
    rfl
  | _ => cases hop

end Reckon
