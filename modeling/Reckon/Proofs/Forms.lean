import Reckon.Proofs.Shown

/-!
# Forms of a number

Decimals that differ only in their form, such as `2.5` and `2.50`, are `Alike`. Computations whose
results are alike, or which fail for the same reason, `Agree`. Rounding does not tell forms apart
(`Context.agree_round`), nor a remainder far behind the last digit that is kept from another one of
the same size relative to half a unit (`Context.round_eq_of_remainders`).
-/

namespace Reckon

namespace Decimal

/-- One number with one sign, in forms that may differ. -/
def Alike : Decimal → Decimal → Prop
  | finite m c e, finite n c' e' => m = n ∧ (c : ℚ) * 10 ^ e = c' * 10 ^ e'
  | a, b => a = b

namespace Alike
variable {a b c : Decimal}

@[refl] theorem refl (a : Decimal) : a.Alike a := by
  cases a with
  | finite => exact ⟨rfl, rfl⟩
  | infinite | nan => exact rfl

theorem symm (h : a.Alike b) : b.Alike a := by
  cases a with
  | finite =>
    cases b with
    | finite => exact ⟨h.1.symm, h.2.symm⟩
    | infinite | nan => exact Eq.symm h
  | infinite | nan =>
    obtain rfl := h
    rfl

theorem trans (h : a.Alike b) (h' : b.Alike c) : a.Alike c := by
  cases a with
  | finite =>
    cases b with
    | finite =>
      cases c with
      | finite => exact ⟨h.1.trans h'.1, h.2.trans h'.2⟩
      | infinite | nan => cases h'
    | infinite | nan => cases h
  | infinite | nan =>
    obtain rfl := h
    exact h'

theorem toRat?_eq (h : a.Alike b) : a.toRat? = b.toRat? := by
  cases a with
  | finite =>
    cases b with
    | finite =>
      obtain ⟨rfl, h⟩ := h
      exact toRat?_eq_of_mul_zpow_eq _ h
    | infinite | nan => cases h
  | infinite | nan =>
    obtain rfl := h
    rfl

end Alike

end Decimal

/-! ### Outcomes -/

/-- Both computations come to results that are related by `R`, or both fail, for reasons related by
`E`. -/
inductive Agree {ε α β : Type} (E : ε → ε → Prop) (R : α → β → Prop) :
    Except ε α → Except ε β → Prop
  | ok {a : α} {b : β} (h : R a b) : Agree E R (.ok a) (.ok b)
  | error {e f : ε} (h : E e f) : Agree E R (.error e) (.error f)

namespace Agree
variable {ε α β γ δ : Type} {E : ε → ε → Prop} {R : α → β → Prop} {S : γ → δ → Prop}
  {r : Except ε α} {r' : Except ε β}

theorem bind {f : α → Except ε γ} {g : β → Except ε δ} (h : Agree E R r r')
    (hfg : ∀ a b, R a b → Agree E S (f a) (g b)) : Agree E S (r >>= f) (r' >>= g) := by
  cases h with
  | ok h => exact hfg _ _ h
  | error h => exact .error h

theorem symm {r r' : Except ε Decimal} (hE : ∀ e f, E e f → E f e)
    (h : Agree E Decimal.Alike r r') : Agree E Decimal.Alike r' r := by
  cases h with
  | ok h => exact .ok h.symm
  | error h => exact .error (hE _ _ h)

theorem trans {r r' r'' : Except ε Decimal} (h : Agree Eq Decimal.Alike r r')
    (h' : Agree Eq Decimal.Alike r' r'') : Agree Eq Decimal.Alike r r'' := by
  cases h with
  | ok h =>
    cases h' with
    | ok h' => exact .ok (h.trans h')
  | error h =>
    cases h' with
    | error h' => exact .error (h.trans h')

theorem refl {R : α → α → Prop} (hE : ∀ e, E e e) (hR : ∀ a, R a a) (r : Except ε α) :
    Agree E R r r := by
  cases r with
  | ok a => exact .ok (hR a)
  | error e => exact .error (hE e)

end Agree

/-- Decimal computations with the same outcome, up to the form of the result. -/
abbrev AgreeDecimal := Agree (@Eq Signal) Decimal.Alike

/-! ### Rounding -/

namespace Decimal

theorem digitCount_eq_iff {n k : Nat} (hn : n ≠ 0) :
    digitCount n = k + 1 ↔ 10 ^ k ≤ n ∧ n < 10 ^ (k + 1) := by
  obtain ⟨m, hm, hle, hlt⟩ := exists_digitCount hn
  rw [hm]
  constructor
  · rintro ⟨⟩
    exact ⟨hle, hlt⟩
  · rintro ⟨hle', hlt'⟩
    have h := (Nat.pow_lt_pow_iff_right (by decide)).mp (hle.trans_lt hlt')
    have h' := (Nat.pow_lt_pow_iff_right (by decide)).mp (hle'.trans_lt hlt)
    omega

/-- Digits behind a number, whatever they are, add to the count. -/
theorem digitCount_mul_add {n w k : Nat} (hn : n ≠ 0) (hw : w < 10 ^ k) :
    digitCount (10 ^ k * n + w) = digitCount n + k := by
  obtain ⟨m, hm, hle, hlt⟩ := exists_digitCount hn
  have hpos : 0 < 10 ^ k := Nat.pow_pos (by decide)
  have hne : 10 ^ k * n + w ≠ 0 := by positivity
  rw [hm, Nat.add_right_comm, digitCount_eq_iff hne, Nat.add_right_comm, pow_add, pow_add _ _ k]
  constructor
  · calc 10 ^ m * 10 ^ k = 10 ^ k * 10 ^ m := Nat.mul_comm _ _
      _ ≤ 10 ^ k * n := Nat.mul_le_mul_left _ hle
      _ ≤ 10 ^ k * n + w := Nat.le_add_right _ _
  · calc 10 ^ k * n + w < 10 ^ k * (n + 1) := by rw [Nat.mul_add_one]; omega
      _ ≤ 10 ^ k * 10 ^ (m + 1) := Nat.mul_le_mul_left _ hlt
      _ = 10 ^ (m + 1) * 10 ^ k := Nat.mul_comm _ _

theorem digitCount_mul_pow {n : Nat} (hn : n ≠ 0) (k : Nat) :
    digitCount (n * 10 ^ k) = digitCount n + k := by
  simpa [Nat.mul_comm] using digitCount_mul_add (w := 0) hn (Nat.pow_pos (by decide))

end Decimal

open Decimal (digitCount ten_zpow_split)

namespace Rounding

theorem two_mul_add_lt_iff {d w j t : Nat} (hw : 0 < w) (hwd : w < d) :
    2 * (d * j + w) < d * t ↔ if 2 * w < d then 2 * j < t else 2 * j + 1 < t := by
  have hsplit : 2 * (d * j + w) = d * (2 * j) + 2 * w := by ring
  have hmono : ∀ {x y : Nat}, x ≤ y → d * x ≤ d * y := fun h => Nat.mul_le_mul_left d h
  rw [hsplit]
  split
  · rename_i hhalf
    constructor
    · intro h
      by_contra hle
      have := hmono (Nat.not_lt.mp hle)
      omega
    · intro h
      have := hmono (Nat.succ_le_of_lt h)
      rw [Nat.mul_succ] at this
      omega
  · constructor
    · intro h
      by_contra hle
      have := hmono (Nat.not_lt.mp hle)
      rw [Nat.mul_succ] at this
      omega
    · intro h
      have := hmono (Nat.succ_le_of_lt h)
      rw [Nat.mul_succ, Nat.mul_succ] at this
      omega

theorem two_mul_add_ne {d w j t : Nat} (hw : 0 < w) (hwd : w < d) (hne : 2 * w ≠ d) :
    2 * (d * j + w) ≠ d * t := by
  intro h
  have hdvd : d ∣ 2 * w := by
    have hsum : d ∣ d * (2 * j) + 2 * w := ⟨t, by rw [← h]; ring⟩
    exact (Nat.dvd_add_right (Nat.dvd_mul_right d _)).mp hsum
  obtain ⟨k, hk⟩ := hdvd
  have hlt : k < 2 := Nat.lt_of_mul_lt_mul_left (a := d) (by omega)
  rcases k with _ | _ | k
  · omega
  · omega
  · omega

/-- A quotient depends on its integer part and on how the rest compares with a half. -/
theorem quotient_of_remainders (r : Rounding) (negative : Bool) {d d' w w' : Nat} (i t : Nat)
    (hw : 0 < w) (hwd : w < d) (hw' : 0 < w') (hwd' : w' < d') (hne : 2 * w ≠ d)
    (hne' : 2 * w' ≠ d') (hhalf : 2 * w < d ↔ 2 * w' < d') :
    r.quotient negative (d * i + w) (d * t) = r.quotient negative (d' * i + w') (d' * t) := by
  have hdiv : ∀ {d w : Nat}, w < d → (d * i + w) / (d * t) = i / t := fun h => by
    rw [← Nat.div_div_eq_div_mul, Nat.mul_add_div (by omega), Nat.div_eq_of_lt h, Nat.add_zero]
  have hmod : ∀ {d w : Nat}, w < d → (d * i + w) % (d * t) = d * (i % t) + w := fun h => by
    rw [Nat.mod_mul, Nat.mul_add_div (by omega), Nat.div_eq_of_lt h, Nat.add_zero,
      Nat.mul_add_mod, Nat.mod_eq_of_lt h, Nat.add_comm]
  have hpos : d * (i % t) + w ≠ 0 := by omega
  have hpos' : d' * (i % t) + w' ≠ 0 := by omega
  have hlt : 2 * (d * (i % t) + w) < d * t ↔ 2 * (d' * (i % t) + w') < d' * t := by
    rw [two_mul_add_lt_iff hw hwd, two_mul_add_lt_iff hw' hwd']
    simp only [hhalf]
  have hle : d * t ≤ 2 * (d * (i % t) + w) ↔ d' * t ≤ 2 * (d' * (i % t) + w') := by
    rw [← Nat.not_lt, hlt, Nat.not_lt]
  have hgt : d * t < 2 * (d * (i % t) + w) ↔ d' * t < 2 * (d' * (i % t) + w') := by
    have h := two_mul_add_ne (j := i % t) (t := t) hw hwd hne
    have h' := two_mul_add_ne (j := i % t) (t := t) hw' hwd' hne'
    omega
  simp only [quotient, hdiv hwd, hdiv hwd', hmod hwd, hmod hwd', hpos, hpos', ↓reduceIte, hlt, hle,
    hgt]

theorem quotient_one (r : Rounding) (negative : Bool) (n : Nat) : r.quotient negative n 1 = n := by
  simp [quotient, Nat.mod_one]

theorem quotient_mul (r : Rounding) (negative : Bool) (n d : Nat) {k : Nat} (hk : 0 < k) :
    r.quotient negative (n * k) (d * k) = r.quotient negative n d := by
  have hrest : ∀ x y, 2 * (x * k) < y * k ↔ 2 * x < y := fun x y => by
    rw [← Nat.mul_assoc, Nat.mul_lt_mul_right hk]
  have hhalf : ∀ x y, y * k ≤ 2 * (x * k) ↔ y ≤ 2 * x := fun x y => by
    rw [← Nat.mul_assoc, Nat.mul_le_mul_right_iff hk]
  have hhalf' : ∀ x y, y * k < 2 * (x * k) ↔ y < 2 * x := fun x y => by
    rw [← Nat.mul_assoc, Nat.mul_lt_mul_right hk]
  have hzero : ∀ x, x * k = 0 ↔ x = 0 := fun x => by simp [hk.ne']
  simp only [quotient, Nat.mul_div_mul_right _ _ hk, Nat.mul_mod_mul_right, hrest, hhalf, hhalf',
    hzero]

/-- The count of digits that are dropped need not be cut down. -/
theorem dropDigits_eq (r : Rounding) (negative : Bool) (c k : Nat) :
    r.dropDigits negative c k = r.quotient negative c (10 ^ k) := by
  rcases Nat.le_total k (digitCount c + 1) with hk | hk
  · rw [dropDigits, Nat.min_eq_left hk, tenTo_eq]
  rw [dropDigits, Nat.min_eq_right hk]
  by_cases hc : c = 0
  · simp [quotient, hc]
  -- either divisor is more than twice the number
  have hcount : 2 * c < 10 ^ (digitCount c + 1) := by
    have := Decimal.lt_pow_digitCount c
    rw [pow_succ]
    omega
  have hpow : 10 ^ (digitCount c + 1) ≤ 10 ^ k := Nat.pow_le_pow_right (by decide) hk
  have h : r.quotient negative (10 ^ (digitCount c + 1) * 0 + c) (10 ^ (digitCount c + 1) * 1) =
      r.quotient negative (10 ^ k * 0 + c) (10 ^ k * 1) :=
    r.quotient_of_remainders negative 0 1 (by omega) (by omega) (by omega) (by omega) (by omega)
      (by omega) (by omega)
  simpa using h

end Rounding

namespace Context
variable {ctx : Context} {negative : Bool}

/-- The exponent of the last digit that is kept of a number whose first digit is in place
`leading`. -/
def lastPlace (ctx : Context) (leading : Int) : Int :=
  max ctx.tiny (leading - ctx.digits + 1)

theorem round_of_ne_zero {c : Nat} (hc : c ≠ 0) (e : Int) :
    let leading := e + digitCount c - 1
    let target := max e (ctx.lastPlace leading)
    let rounded := ctx.rounding.quotient negative c (10 ^ (target - e).toNat)
    ctx.round negative c e =
      if maxExponent < leading then .error .overflow
      else if rounded < 10 ^ ctx.digits then .ok (.finite negative rounded target)
      else if leading < maxExponent then .ok (.finite negative (rounded / 10) (target + 1))
      else .error .overflow := by
  intro leading target rounded
  rw [round, if_neg hc]
  simp only [Rounding.dropDigits_eq]
  rfl

/-- A number with no more digits than are kept stays as it is. -/
theorem round_of_lastPlace_le {c : Nat} {e : Int} (hc : c ≠ 0)
    (he : ctx.lastPlace (e + digitCount c - 1) ≤ e) :
    ctx.round negative c e =
      if maxExponent < e + digitCount c - 1 then .error .overflow
      else .ok (.finite negative c e) := by
  have hdigits : c < 10 ^ ctx.digits :=
    (Decimal.lt_pow_digitCount c).trans_le
      (Nat.pow_le_pow_right (by decide) (by unfold lastPlace at he; omega))
  rw [round_of_ne_zero hc, max_eq_left he, sub_self, Int.toNat_zero, pow_zero,
    Rounding.quotient_one, if_pos hdigits]

/-- Zeros behind the last place that is kept are dropped again. -/
theorem round_mul_pow_of_le {c : Nat} {e : Int} (hc : c ≠ 0)
    (he : e ≤ ctx.lastPlace (e + digitCount c - 1)) (k : Nat) :
    ctx.round negative (c * 10 ^ k) (e - k) = ctx.round negative c e := by
  have hpow : 10 ^ k ≠ 0 := (Nat.pow_pos (by decide)).ne'
  have hplace : e - k + digitCount (c * 10 ^ k) - 1 = e + digitCount c - 1 := by
    rw [Decimal.digitCount_mul_pow hc]
    omega
  rw [round_of_ne_zero hc, round_of_ne_zero (Nat.mul_ne_zero hc hpow), hplace, max_eq_right he,
    max_eq_right (by omega)]
  have hshift : (ctx.lastPlace (e + digitCount c - 1) - (e - k)).toNat =
      (ctx.lastPlace (e + digitCount c - 1) - e).toNat + k := by omega
  rw [hshift, pow_add, Rounding.quotient_mul _ _ _ _ (Nat.pos_of_ne_zero hpow)]

/-- Zeros behind a number that all digits are kept of are kept or dropped. -/
theorem agree_round_of_lastPlace_le {c : Nat} {e : Int} (hc : c ≠ 0) (k : Nat)
    (he : ctx.lastPlace (e + digitCount c - 1) ≤ e - k) :
    AgreeDecimal (ctx.round negative c e) (ctx.round negative (c * 10 ^ k) (e - k)) := by
  have hpow : 10 ^ k ≠ 0 := (Nat.pow_pos (by decide)).ne'
  have hplace : e - k + digitCount (c * 10 ^ k) - 1 = e + digitCount c - 1 := by
    rw [Decimal.digitCount_mul_pow hc]
    omega
  rw [round_of_lastPlace_le hc (by omega),
    round_of_lastPlace_le (Nat.mul_ne_zero hc hpow) (by rwa [hplace]), hplace]
  split
  · exact .error rfl
  · refine .ok ⟨rfl, ?_⟩
    rw [ten_zpow_split (show e - k ≤ e by omega), sub_sub_cancel, Int.toNat_natCast, tenTo_eq]
    push_cast
    ring

theorem agree_round_mul_pow (c : Nat) (e : Int) (k : Nat) :
    AgreeDecimal (ctx.round negative c e) (ctx.round negative (c * 10 ^ k) (e - k)) := by
  by_cases hc : c = 0
  · rw [hc, Nat.zero_mul]
    exact .ok ⟨rfl, by simp⟩
  obtain ⟨j, hj⟩ : ∃ j, j = min k (e - ctx.lastPlace (e + digitCount c - 1)).toNat := ⟨_, rfl⟩
  rcases Int.le_total e (ctx.lastPlace (e + digitCount c - 1)) with he | he
  · rw [round_mul_pow_of_le hc he]
    exact .refl (fun _ => rfl) .refl _
  -- the zeros down to the last place are kept, those behind it dropped
  have hkept : AgreeDecimal (ctx.round negative c e) (ctx.round negative (c * 10 ^ j) (e - j)) :=
    agree_round_of_lastPlace_le hc j (by omega)
  have hpow : 10 ^ j ≠ 0 := (Nat.pow_pos (by decide)).ne'
  rcases Nat.lt_or_ge j k with hlt | hle
  · have hsplit : c * 10 ^ k = c * 10 ^ j * 10 ^ (k - j) := by
      rw [Nat.mul_assoc, ← pow_add]
      congr 2
      omega
    have hplace : e - j + digitCount (c * 10 ^ j) - 1 = e + digitCount c - 1 := by
      rw [Decimal.digitCount_mul_pow hc]
      omega
    have hbehind : e - j ≤ ctx.lastPlace (e - j + digitCount (c * 10 ^ j) - 1) := by
      rw [hplace]
      omega
    rw [hsplit, show e - (k : Int) = e - j - (k - j : Nat) by omega,
      round_mul_pow_of_le (Nat.mul_ne_zero hc hpow) hbehind]
    exact hkept
  · rwa [show j = k by omega] at hkept

/-- Rounding does not tell the forms of a number apart. -/
theorem agree_round {c c' : Nat} {e e' : Int} (h : (c : ℚ) * 10 ^ e = c' * 10 ^ e') :
    AgreeDecimal (ctx.round negative c e) (ctx.round negative c' e') := by
  have hle : ∀ {c c' : Nat} {e e' : Int}, e' ≤ e → (c : ℚ) * 10 ^ e = c' * 10 ^ e' →
      AgreeDecimal (ctx.round negative c e) (ctx.round negative c' e') := by
    intro c c' e e' hle heq
    obtain ⟨k, hk⟩ : ∃ k : Nat, e' = e - k := ⟨(e - e').toNat, by omega⟩
    rw [eq_mul_of_mul_zpow_eq hle heq.symm, hk, sub_sub_cancel, Int.toNat_natCast]
    exact agree_round_mul_pow c e k
  rcases Int.le_total e' e with he | he
  · exact hle he h
  · exact (hle he h.symm).symm fun _ _ => Eq.symm

/-- What lies behind the last place that is kept counts only by how it compares with a half. -/
theorem round_eq_of_remainders {i k w v : Nat} (e : Int) (hi : i ≠ 0)
    (hdigits : ctx.digits ≤ digitCount i) (hw : 0 < w) (hwk : w < 10 ^ (k + 1))
    (hne : 2 * w ≠ 10 ^ (k + 1)) (hv : 0 < v) (hv10 : v < 10) (hne' : 2 * v ≠ 10)
    (hhalf : 2 * w < 10 ^ (k + 1) ↔ 2 * v < 10) :
    ctx.round negative (10 ^ (k + 1) * i + w) e = ctx.round negative (10 ^ 1 * i + v) (e + k) := by
  have hcount := Decimal.digitCount_mul_add hi hwk
  have hcount' := Decimal.digitCount_mul_add hi (show v < 10 ^ 1 by omega)
  have hpos : 10 ^ (k + 1) * i + w ≠ 0 := by omega
  have hpos' : 10 ^ 1 * i + v ≠ 0 := by omega
  have hplace : e + k + digitCount (10 ^ 1 * i + v) - 1 =
      e + digitCount (10 ^ (k + 1) * i + w) - 1 := by
    rw [hcount, hcount']
    push_cast
    ring
  rw [round_of_ne_zero hpos, round_of_ne_zero hpos', hplace]
  obtain ⟨last, hlast⟩ : ∃ last, last =
    ctx.lastPlace (e + digitCount (10 ^ (k + 1) * i + w) - 1) := ⟨_, rfl⟩
  have hbehind : e + k + 1 ≤ last := by
    rw [hlast, lastPlace, hcount]
    omega
  rw [← hlast, max_eq_right (by omega), max_eq_right (by omega)]
  obtain ⟨n, hn⟩ : ∃ n : Nat, last = e + k + 1 + n := ⟨(last - (e + k + 1)).toNat, by omega⟩
  have hquotient : ctx.rounding.quotient negative (10 ^ (k + 1) * i + w) (10 ^ (k + 1) * 10 ^ n) =
      ctx.rounding.quotient negative (10 ^ 1 * i + v) (10 ^ 1 * 10 ^ n) :=
    ctx.rounding.quotient_of_remainders negative i _ hw hwk hv (by omega) hne (by omega) (by omega)
  rw [show (last - e).toNat = k + 1 + n by omega, show (last - (e + k)).toNat = 1 + n by omega,
    pow_add 10 (k + 1), pow_add 10 1, hquotient]

end Context

end Reckon
