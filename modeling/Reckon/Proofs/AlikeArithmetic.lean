import Reckon.Proofs.Forms

/-!
# Arithmetic on forms of a number

Sums and products do not tell the forms of their operands apart (`agree_add`, `agree_mul`). A sum is
the exact sum rounded once, although a summand that lies behind all digits that are kept is not
added digit by digit (`agree_addAligned`).
-/

namespace Reckon

namespace Decimal
variable {ctx : Context} {a a' b b' : Decimal}

namespace Alike

theorem exists_of_finite {m : Bool} {c : Nat} {e : Int} (h : (finite m c e).Alike b) :
    ∃ c' e', b = finite m c' e' ∧ (c : ℚ) * 10 ^ e = c' * 10 ^ e' := by
  cases b with
  | finite n c' e' =>
    obtain ⟨rfl, h⟩ := h
    exact ⟨c', e', rfl, h⟩
  | infinite | nan => cases h

theorem flip (h : a.Alike b) : a.flip.Alike b.flip := by
  cases a with
  | finite =>
    obtain ⟨c', e', rfl, heq⟩ := h.exists_of_finite
    exact ⟨rfl, heq⟩
  | infinite | nan =>
    obtain rfl := h
    rfl

theorem isNegative_eq (h : a.Alike b) : a.isNegative = b.isNegative := by
  cases a with
  | finite =>
    obtain ⟨c', e', rfl, -⟩ := h.exists_of_finite
    rfl
  | infinite | nan =>
    obtain rfl := h
    rfl

end Alike

theorem eq_zero_iff_of_mul_zpow_eq {c c' : Nat} {e e' : Int} (h : (c : ℚ) * 10 ^ e = c' * 10 ^ e') :
    c = 0 ↔ c' = 0 := by
  have hiff : (c : ℚ) * 10 ^ e = 0 ↔ (c' : ℚ) * 10 ^ e' = 0 := by rw [h]
  simpa [(ten_zpow_pos e).ne', (ten_zpow_pos e').ne'] using hiff

/-- The first digits of two forms of a number stand in the same place. -/
theorem leading_eq {c c' : Nat} {e e' : Int} (hc : c ≠ 0) (h : (c : ℚ) * 10 ^ e = c' * 10 ^ e') :
    e + digitCount c = e' + digitCount c' := by
  have hc' : c' ≠ 0 := mt (eq_zero_iff_of_mul_zpow_eq h).mpr hc
  obtain ⟨m, hm, hle, hlt⟩ := exists_digitCount hc
  obtain ⟨m', hm', hle', hlt'⟩ := exists_digitCount hc'
  have := lt_add_of_mul_zpow_eq hle hlt' h
  have := lt_add_of_mul_zpow_eq hle' hlt h.symm
  omega

/-! ### Signs -/

theorem agree_plus (h : a.Alike b) : AgreeDecimal (plus ctx a) (plus ctx b) := by
  cases a with
  | finite m c e =>
    obtain ⟨c', e', rfl, heq⟩ := h.exists_of_finite
    have hzero : (c != 0) = (c' != 0) := by
      rw [Bool.eq_iff_iff, bne_iff_ne, bne_iff_ne, ne_eq, ne_eq, eq_zero_iff_of_mul_zpow_eq heq]
    rw [plus, plus, hzero]
    exact Context.agree_round heq
  | infinite | nan =>
    obtain rfl := h
    exact .ok (.refl _)

theorem agree_minus (h : a.Alike b) : AgreeDecimal (minus ctx a) (minus ctx b) :=
  agree_plus h.flip

theorem agree_abs (h : a.Alike b) : AgreeDecimal (abs ctx a) (abs ctx b) := by
  rw [abs, abs, h.isNegative_eq]
  split
  · exact agree_minus h
  · exact agree_plus h

/-! ### Sums -/

/-- The sum of two coefficients at the smaller one of their exponents. -/
def exactSum (m : Bool) (c : Nat) (e : Int) (n : Bool) (c' : Nat) (e' : Int) : Int :=
  signed m (c * 10 ^ (e - e').toNat) + signed n (c' * 10 ^ (e' - e).toNat)

theorem cast_signed (m : Bool) (c k : Nat) : ((signed m (c * k) : ℤ) : ℚ) = signed m c * k := by
  cases m <;> simp [signed]

theorem exactSum_mul_zpow (m : Bool) (c : Nat) (e : Int) (n : Bool) (c' : Nat) (e' : Int) :
    (exactSum m c e n c' e' : ℚ) * 10 ^ min e e' = signed m c * 10 ^ e + signed n c' * 10 ^ e' := by
  have h : ∀ {x y : Int}, ((10 ^ (x - y).toNat : ℕ) : ℚ) * 10 ^ min x y = 10 ^ x := by
    intro x y
    rw [cast_ten_pow, ← zpow_add₀ (by norm_num)]
    congr 1
    omega
  rw [exactSum, Int.cast_add, cast_signed, cast_signed, add_mul, mul_assoc, mul_assoc, h, min_comm,
    h]

/-- A smaller number neither turns the sign of a larger one nor makes it zero. -/
theorem signed_add_signed {m n : Bool} {x y : Nat} (h : y < x) :
    signed m x + signed n y ≠ 0 ∧ decide (signed m x + signed n y < 0) = m ∧
      (signed m x + signed n y).natAbs = if m = n then x + y else x - y := by
  cases m <;> cases n <;> simp [signed] <;> omega

/-- The sign of a sum, which that of two zeros has only if both have it. -/
def sumSign (m n : Bool) (s : Int) : Bool :=
  if s = 0 then m && n else decide (s < 0)

theorem sumSign_signed {m n : Bool} {x y : Nat} (h : y < x) :
    sumSign m n (signed m x + signed n y) = m := by
  obtain ⟨hne, hsign, -⟩ := signed_add_signed (m := m) (n := n) h
  rw [sumSign, if_neg hne, hsign]

/-- Beside a number with digits enough, a number that lies wholly behind them may be any. -/
theorem round_signed_add {m n : Bool} {x y k : Nat} (e : Int) (hctx : 0 < ctx.digits)
    (hx : 10 ^ ctx.digits ≤ x) (hy : 0 < y) (hyk : y < 10 ^ k) :
    ctx.round (sumSign m n (signed m (10 ^ (k + 1) * x : ℕ) + signed n y))
        (signed m (10 ^ (k + 1) * x : ℕ) + signed n y).natAbs e =
      ctx.round (sumSign m n (signed m (10 ^ 1 * x : ℕ) + signed n 1))
        (signed m (10 ^ 1 * x : ℕ) + signed n 1).natAbs (e + k) := by
  have hten : 10 ^ (k + 1) = 10 * 10 ^ k := by rw [pow_succ, Nat.mul_comm]
  obtain ⟨i, rfl⟩ : ∃ i, x = i + 1 := Nat.exists_eq_succ_of_ne_zero (by
    have : 0 < 10 ^ ctx.digits := Nat.pow_pos (by decide)
    omega)
  have hsplit : ∀ j : Nat, 10 ^ j * (i + 1) = 10 ^ j * i + 10 ^ j := fun j => Nat.mul_add_one _ _
  have hyx : y < 10 ^ (k + 1) * (i + 1) := by
    rw [hsplit]
    omega
  have hyx' : 1 < 10 ^ 1 * (i + 1) := by omega
  have hi : 10 ^ (ctx.digits - 1) ≤ i := by
    have : 10 ^ (ctx.digits - 1) * 10 = 10 ^ ctx.digits := by
      rw [← pow_succ, Nat.sub_one_add_one hctx.ne']
    have : 0 < 10 ^ (ctx.digits - 1) := Nat.pow_pos (by decide)
    omega
  have hne : i ≠ 0 := by
    have : 0 < 10 ^ (ctx.digits - 1) := Nat.pow_pos (by decide)
    omega
  rw [sumSign_signed hyx, sumSign_signed hyx', (signed_add_signed hyx).2.2,
    (signed_add_signed hyx').2.2]
  split
  · have hdigits : ctx.digits ≤ digitCount (i + 1) := (lt_digitCount_of_pow_le hx).le
    exact Context.round_eq_of_remainders e (by omega) hdigits hy (by omega) (by omega)
      (by decide) (by decide) (by decide) (by omega)
  · have hdigits : ctx.digits ≤ digitCount i := by
      have := lt_digitCount_of_pow_le hi
      omega
    rw [hsplit, hsplit, Nat.add_sub_assoc (by omega), Nat.add_sub_assoc (by omega)]
    exact Context.round_eq_of_remainders e hne hdigits (by omega) (by omega) (by omega) (by decide)
      (by decide) (by decide) (by omega)

theorem addAligned_eq {m n : Bool} {c c' : Nat} {e e' : Int} {small : Nat × Int}
    (h : (if c ≠ 0 ∧ e' < e then
          asSmallSummand (e - 1 + min 0 ((digitCount c : Int) - ctx.digits - 1)) c' e'
        else (c', e')) = small) :
    addAligned ctx m c e n c' e' =
      ctx.round (sumSign m n (signed m (c * 10 ^ (e - small.2).toNat : ℕ) + signed n small.1))
        (signed m (c * 10 ^ (e - small.2).toNat : ℕ) + signed n small.1).natAbs small.2 := by
  have hbig : (if c = 0 then 0 else c * tenTo (e - small.2).toNat) =
      c * 10 ^ (e - small.2).toNat := by
    split
    · rename_i hc
      rw [hc, Nat.zero_mul]
    · rfl
  simp only [addAligned]
  rw [h, hbig]
  rfl

/-- Of a sum with `c` no digits behind `floor` are kept; so a summand that lies wholly behind it may
be any. -/
theorem round_signed_add_of_lt {m n : Bool} {c c' : Nat} {e e' floor : Int} (hctx : 0 < ctx.digits)
    (hc : c ≠ 0) (hc' : c' ≠ 0)
    (hfloor : floor = e - 1 + min 0 ((digitCount c : Int) - ctx.digits - 1))
    (hbehind : e' + digitCount c' - 1 < floor) :
    ctx.round (sumSign m n (signed m (c * 10 ^ (e - e').toNat : ℕ) + signed n c'))
        (signed m (c * 10 ^ (e - e').toNat : ℕ) + signed n c').natAbs e' =
      ctx.round (sumSign m n (signed m (c * 10 ^ (e - floor).toNat : ℕ) + signed n 1))
        (signed m (c * 10 ^ (e - floor).toNat : ℕ) + signed n 1).natAbs floor := by
  obtain ⟨k, hk⟩ : ∃ k : Nat, floor = e' + k := ⟨(floor - e').toNat, by omega⟩
  obtain ⟨x, hx⟩ : ∃ x, x = c * 10 ^ (e - floor - 1).toNat := ⟨_, rfl⟩
  have hshift : ∀ j : Nat, c * 10 ^ ((e - floor - 1).toNat + j) = 10 ^ j * x := fun j => by
    rw [hx, pow_add]
    ring
  have hmany : 10 ^ ctx.digits ≤ x := by
    have hcount : digitCount x = digitCount c + (e - floor - 1).toNat := by
      rw [hx, digitCount_mul_pow hc]
    have hne : x ≠ 0 := by
      rw [hx]
      exact Nat.mul_ne_zero hc (Nat.pow_pos (by decide)).ne'
    by_contra hfew
    have := digitCount_le_of_lt_pow hne (Nat.not_le.mp hfew)
    omega
  have hfew : c' < 10 ^ k :=
    (lt_pow_digitCount c').trans_le (Nat.pow_le_pow_right (by decide) (by omega))
  rw [show (e - floor).toNat = (e - floor - 1).toNat + 1 by omega,
    show (e - e').toNat = (e - floor - 1).toNat + (k + 1) by omega, hshift, hshift, hk]
  exact round_signed_add e' hctx hmany (Nat.pos_of_ne_zero hc') hfew

/-- A summand that lies wholly behind the digits that are kept counts as one unit there. -/
theorem agree_addAligned {m n : Bool} {c c' : Nat} {e e' : Int} (hctx : 0 < ctx.digits)
    (hle : e' ≤ e) :
    AgreeDecimal (addAligned ctx m c e n c' e')
      (ctx.round (sumSign m n (exactSum m c e n c' e')) (exactSum m c e n c' e').natAbs e') := by
  have hexact : exactSum m c e n c' e' = signed m (c * 10 ^ (e - e').toNat : ℕ) + signed n c' := by
    rw [exactSum, show (e' - e).toNat = 0 by omega, pow_zero, Nat.mul_one]
  rw [hexact]
  obtain ⟨floor, hfloor⟩ : ∃ floor, floor = e - 1 + min 0 ((digitCount c : Int) - ctx.digits - 1) :=
    ⟨_, rfl⟩
  by_cases hsmall : (c ≠ 0 ∧ e' < e) ∧ e' + digitCount c' - 1 < floor
  · obtain ⟨⟨hc, hlt⟩, hbehind⟩ := hsmall
    have hunit : (if c ≠ 0 ∧ e' < e then
          asSmallSummand (e - 1 + min 0 ((digitCount c : Int) - ctx.digits - 1)) c' e'
        else (c', e')) = (min c' 1, floor) := by
      rw [if_pos ⟨hc, hlt⟩, ← hfloor, asSmallSummand, if_pos hbehind]
    rw [addAligned_eq hunit]
    simp only
    by_cases hc' : c' = 0
    · -- zero only lends its exponent
      have hpos : ∀ k, 0 < c * 10 ^ k := fun k =>
        Nat.mul_pos (Nat.pos_of_ne_zero hc) (Nat.pow_pos (by decide))
      rw [hc', show min 0 1 = 0 from rfl, sumSign_signed (hpos _), sumSign_signed (hpos _),
        (signed_add_signed (hpos _)).2.2, (signed_add_signed (hpos _)).2.2]
      simp only [Nat.add_zero, Nat.sub_zero, ite_self]
      refine Context.agree_round ?_
      rw [Nat.cast_mul, Nat.cast_mul, mul_assoc, mul_assoc, ← tenTo_eq, ← tenTo_eq,
        ← ten_zpow_split hle, ← ten_zpow_split (show floor ≤ e by omega)]
    · rw [show min c' 1 = 1 by omega, round_signed_add_of_lt hctx hc hc' hfloor hbehind]
      exact .refl (fun _ => rfl) .refl _
  · have hall : (if c ≠ 0 ∧ e' < e then
          asSmallSummand (e - 1 + min 0 ((digitCount c : Int) - ctx.digits - 1)) c' e'
        else (c', e')) = (c', e') := by
      split
      · exact if_neg fun h => hsmall ⟨‹_›, hfloor ▸ h⟩
      · rfl
    rw [addAligned_eq hall]
    exact .refl (fun _ => rfl) .refl _

theorem exactSum_comm (m : Bool) (c : Nat) (e : Int) (n : Bool) (c' : Nat) (e' : Int) :
    exactSum m c e n c' e' = exactSum n c' e' m c e :=
  add_comm _ _

theorem sumSign_comm (m n : Bool) (s : Int) : sumSign m n s = sumSign n m s := by
  rw [sumSign, sumSign, Bool.and_comm]

/-- A sum is the exact sum rounded. -/
theorem agree_add_finite (hctx : 0 < ctx.digits) (m : Bool) (c : Nat) (e : Int) (n : Bool)
    (c' : Nat) (e' : Int) :
    AgreeDecimal (add ctx (finite m c e) (finite n c' e'))
      (ctx.round (sumSign m n (exactSum m c e n c' e')) (exactSum m c e n c' e').natAbs
        (min e e')) := by
  rw [add]
  split
  · rename_i hlt
    rw [exactSum_comm, sumSign_comm, min_eq_left hlt.le]
    exact agree_addAligned hctx hlt.le
  · rename_i hle
    rw [min_eq_right (not_lt.mp hle)]
    exact agree_addAligned hctx (not_lt.mp hle)

theorem agree_round_sum {m n : Bool} {x x' e e' : Int} (h : (x : ℚ) * 10 ^ e = x' * 10 ^ e') :
    AgreeDecimal (ctx.round (sumSign m n x) x.natAbs e)
      (ctx.round (sumSign m n x') x'.natAbs e') := by
  have hpos := ten_zpow_pos e
  have hpos' := ten_zpow_pos e'
  have hzero : x = 0 ↔ x' = 0 := by
    have hiff : (x : ℚ) * 10 ^ e = 0 ↔ (x' : ℚ) * 10 ^ e' = 0 := by rw [h]
    simpa [hpos.ne', hpos'.ne'] using hiff
  have hneg : x < 0 ↔ x' < 0 := by
    have hiff : (x : ℚ) * 10 ^ e < 0 ↔ (x' : ℚ) * 10 ^ e' < 0 := by rw [h]
    simpa [mul_neg_iff, hpos, hpos', hpos.not_gt, hpos'.not_gt] using hiff
  have hsign : sumSign m n x = sumSign m n x' := by
    simp only [sumSign, hzero, hneg]
  rw [hsign]
  refine Context.agree_round ?_
  rw [Nat.cast_natAbs, Nat.cast_natAbs, Int.cast_abs, Int.cast_abs]
  simpa [abs_mul, abs_of_pos hpos, abs_of_pos hpos'] using congrArg (|·|) h

theorem signed_mul_zpow {m : Bool} {c c' : Nat} {e e' : Int} (h : (c : ℚ) * 10 ^ e = c' * 10 ^ e') :
    (signed m c : ℚ) * 10 ^ e = signed m c' * 10 ^ e' := by
  cases m with
  | false => exact h
  | true =>
    rw [signed_true, signed_true]
    push_cast
    rw [neg_mul, neg_mul, h]

theorem agree_add (hctx : 0 < ctx.digits) (ha : a.Alike a') (hb : b.Alike b') :
    AgreeDecimal (add ctx a b) (add ctx a' b') := by
  cases a with
  | infinite | nan =>
    obtain rfl := ha
    cases b with
    | finite =>
      obtain ⟨d, k, rfl, -⟩ := hb.exists_of_finite
      exact .ok (.refl _)
    | infinite | nan =>
      obtain rfl := hb
      exact .refl (fun _ => rfl) .refl _
  | finite m c e =>
    obtain ⟨d, k, rfl, hc⟩ := ha.exists_of_finite
    cases b with
    | infinite | nan =>
      obtain rfl := hb
      exact .ok (.refl _)
    | finite n c' e' =>
      obtain ⟨d', k', rfl, hc'⟩ := hb.exists_of_finite
      refine (agree_add_finite hctx m c e n c' e').trans ?_
      refine .trans ?_ ((agree_add_finite hctx m d k n d' k').symm fun _ _ => Eq.symm)
      refine agree_round_sum ?_
      rw [exactSum_mul_zpow, exactSum_mul_zpow, signed_mul_zpow hc, signed_mul_zpow hc']

theorem agree_sub (hctx : 0 < ctx.digits) (ha : a.Alike a') (hb : b.Alike b') :
    AgreeDecimal (sub ctx a b) (sub ctx a' b') :=
  agree_add hctx ha hb.flip

/-! ### Products -/

theorem agree_mul (ha : a.Alike a') (hb : b.Alike b') :
    AgreeDecimal (mul ctx a b) (mul ctx a' b') := by
  cases a with
  | infinite =>
    obtain rfl := ha
    cases b with
    | finite n c e =>
      obtain ⟨d, k, rfl, hc⟩ := hb.exists_of_finite
      simp only [mul, eq_zero_iff_of_mul_zpow_eq hc]
      exact .refl (fun _ => rfl) .refl _
    | infinite | nan =>
      obtain rfl := hb
      exact .refl (fun _ => rfl) .refl _
  | nan =>
    obtain rfl := ha
    exact .ok (.refl _)
  | finite m c e =>
    obtain ⟨d, k, rfl, hc⟩ := ha.exists_of_finite
    cases b with
    | infinite =>
      obtain rfl := hb
      simp only [mul, eq_zero_iff_of_mul_zpow_eq hc]
      exact .refl (fun _ => rfl) .refl _
    | nan =>
      obtain rfl := hb
      exact .ok (.refl _)
    | finite n c' e' =>
      obtain ⟨d', k', rfl, hc'⟩ := hb.exists_of_finite
      refine Context.agree_round ?_
      rw [Nat.cast_mul, Nat.cast_mul, zpow_add₀ (by norm_num), zpow_add₀ (by norm_num),
        mul_mul_mul_comm, hc, hc', mul_mul_mul_comm]

end Decimal

end Reckon
