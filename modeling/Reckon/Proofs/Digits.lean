import Mathlib.Algebra.Order.Ring.Nat
import Mathlib.Tactic.Linarith
import Mathlib.Tactic.Ring
import Reckon.Proofs.Display

/-!
# Digits that are read back

Reading the digits of a number gives the number (`digitsValue_digits`), also with a point among them
(`readMagnitude?_withPoint`), and `digitCount` is the number of digits (`exists_digitCount`).
-/

namespace Reckon.Decimal

open Reckon.Text

/-! ### The value of digits -/

theorem digitValue?_digitChar {d : Nat} (h : d < 10) : digitValue? (digitChar d) = some d := by
  have : ∀ d < 10, digitValue? (digitChar d) = some d := by decide
  exact this d h

theorem foldl_natValue (v : Nat) (ds : List Nat) :
    ds.foldl (fun v d => 10 * v + d) v = v * 10 ^ ds.length + natValue ds := by
  induction ds generalizing v with
  | nil => simp [natValue]
  | cons d ds ih =>
    rw [natValue, List.foldl_cons, List.foldl_cons, ih, ih, List.length_cons, pow_succ]
    ring

/-- What a text of digits is worth in front of others. -/
theorem digitsValue_append {s t : List Char} (ht : ∀ c ∈ t, isDigit c = true) :
    digitsValue (s ++ t) = digitsValue s * 10 ^ t.length + digitsValue t := by
  have hlength : (t.filterMap digitValue?).length = t.length := by
    induction t with
    | nil => rfl
    | cons c t ih =>
      obtain ⟨d, hd⟩ := Option.isSome_iff_exists.mp (ht c (List.mem_cons_self ..))
      rw [List.filterMap_cons_some hd, List.length_cons, List.length_cons,
        ih fun c hc => ht c (List.mem_cons_of_mem _ hc)]
  rw [digitsValue, List.filterMap_append, natValue, List.foldl_append, foldl_natValue, hlength]
  rfl

theorem digitsValue_lt {s : List Char} (h : ∀ c ∈ s, isAsciiDigit c = true) :
    digitsValue s < 10 ^ s.length := by
  induction s using List.reverseRecOn with
  | nil => decide
  | append_singleton s c ih =>
    have hc := h c (by simp)
    have hdigit : digitsValue [c] < 10 := by
      have hrange := isAsciiDigit_iff.mp hc
      have hvalue : digitValue? c = some (c.toNat - 48) := by
        rw [digitValue?, if_pos (by omega), if_pos (by simpa [isAsciiDigit] using hc)]
      rw [digitsValue, List.filterMap_cons_some hvalue]
      simp only [List.filterMap_nil, natValue, List.foldl_cons, List.foldl_nil]
      omega
    have hs := ih fun d hd => h d (by simp [hd])
    rw [digitsValue_append (by simpa using isDigit_of_isAsciiDigit hc), List.length_append,
      List.length_singleton, pow_one, pow_succ]
    omega

theorem digitsValue_replicate_zero (n : Nat) : digitsValue (List.replicate n '0') = 0 := by
  induction n with
  | zero => rfl
  | succ n ih =>
    have hdigit : ∀ c ∈ ['0'], isDigit c = true := by decide
    rw [List.replicate_succ', digitsValue_append hdigit, ih]
    decide

theorem digitsValue_digitsOnto (n : Nat) {acc : List Char} (h : ∀ c ∈ acc, isDigit c = true) :
    digitsValue (digitsOnto n acc) = n * 10 ^ acc.length + digitsValue acc := by
  have hcons : ∀ d < 10, ∀ t : List Char, (∀ c ∈ t, isDigit c = true) →
      digitsValue (digitChar d :: t) = d * 10 ^ t.length + digitsValue t := by
    intro d hd t ht
    have hsingle : digitsValue [digitChar d] = d := by
      simp [digitsValue, digitValue?_digitChar hd, natValue]
    rw [← List.singleton_append, digitsValue_append ht, hsingle]
  fun_induction digitsOnto n acc with
  | case1 n acc hn => exact hcons n hn acc h
  | case2 n acc hn ih =>
    have hlow : n % 10 < 10 := Nat.mod_lt n (by decide)
    have hdigits : ∀ c ∈ digitChar (n % 10) :: acc, isDigit c = true := by
      intro c hc
      rcases List.mem_cons.mp hc with rfl | hc
      · exact isDigit_of_isAsciiDigit (isAsciiDigit_digitChar hlow)
      · exact h c hc
    have hsplit : n = 10 * (n / 10) + n % 10 := (Nat.div_add_mod n 10).symm
    rw [ih hdigits, hcons _ hlow acc h, List.length_cons, pow_succ]
    calc n / 10 * (10 ^ acc.length * 10) + (n % 10 * 10 ^ acc.length + digitsValue acc)
        = (10 * (n / 10) + n % 10) * 10 ^ acc.length + digitsValue acc := by ring
      _ = n * 10 ^ acc.length + digitsValue acc := by rw [← hsplit]

theorem digitsValue_digits (n : Nat) : digitsValue (digits n) = n := by
  have h := @digitsValue_digitsOnto n [] (by simp)
  rw [digits, h]
  simp [digitsValue, natValue]

/-! ### Counting digits -/

theorem countFrom_spec {n p k : Nat} (hp : 0 < p) (hpk : p = 10 ^ k) (h : p ≤ n) :
    ∃ m, countFrom n p k hp = m + 1 ∧ 10 ^ m ≤ n ∧ n < 10 ^ (m + 1) := by
  fun_induction countFrom n p k hp with
  | case1 p k hp hn => omega
  | case2 p k hp hn ih =>
    have hnext : 10 * p = 10 ^ (k + 1) := by rw [hpk, pow_succ, Nat.mul_comm]
    by_cases hle : 10 * p ≤ n
    · exact ih hnext hle
    · refine ⟨k, ?_, hpk ▸ h, by omega⟩
      rw [countFrom, if_pos (by omega)]

/-- Ten bits are at least three digits. -/
theorem ten_pow_log2_le {n : Nat} (hn : n ≠ 0) : 10 ^ (3 * (n.log2 / 10)) ≤ n := by
  have hpow : (10 ^ 3 : ℕ) ^ (n.log2 / 10) ≤ (2 ^ 10) ^ (n.log2 / 10) :=
    Nat.pow_le_pow_left (by norm_num) _
  have hexp : 10 * (n.log2 / 10) ≤ n.log2 := Nat.mul_div_le _ _
  calc 10 ^ (3 * (n.log2 / 10)) = (10 ^ 3) ^ (n.log2 / 10) := pow_mul 10 3 _
    _ ≤ (2 ^ 10) ^ (n.log2 / 10) := hpow
    _ = 2 ^ (10 * (n.log2 / 10)) := (pow_mul 2 10 _).symm
    _ ≤ 2 ^ n.log2 := Nat.pow_le_pow_right (by decide) hexp
    _ ≤ n := Nat.log2_self_le hn

theorem exists_digitCount {n : Nat} (hn : n ≠ 0) :
    ∃ m, digitCount n = m + 1 ∧ 10 ^ m ≤ n ∧ n < 10 ^ (m + 1) := by
  rw [digitCount]
  split
  · exact ⟨0, rfl, by omega, by omega⟩
  · exact countFrom_spec _ rfl (ten_pow_log2_le hn)

theorem lt_pow_digitCount (n : Nat) : n < 10 ^ digitCount n := by
  by_cases hn : n = 0
  · rw [hn]
    exact Nat.pow_pos (by decide)
  · obtain ⟨m, hm, -, hlt⟩ := exists_digitCount hn
    rwa [hm]

theorem digitCount_le_of_lt_pow {n k : Nat} (hn : n ≠ 0) (h : n < 10 ^ k) : digitCount n ≤ k := by
  obtain ⟨m, hm, hle, -⟩ := exists_digitCount hn
  have hlt : m < k := (Nat.pow_lt_pow_iff_right (by decide)).mp (hle.trans_lt h)
  omega

theorem lt_digitCount_of_pow_le {n k : Nat} (h : 10 ^ k ≤ n) : k < digitCount n :=
  (Nat.pow_lt_pow_iff_right (by decide)).mp (h.trans_lt (lt_pow_digitCount n))

/-! ### Reading -/

section
variable {s t : List Char}

theorem takeWhile_isDigit (h : ∀ c ∈ s, isAsciiDigit c = true) : s.takeWhile isDigit = s :=
  List.takeWhile_eq_self_iff.mpr fun c hc => isDigit_of_isAsciiDigit (h c hc)

theorem dropWhile_isDigit (h : ∀ c ∈ s, isAsciiDigit c = true) : s.dropWhile isDigit = [] :=
  List.dropWhile_eq_nil_iff.mpr fun c hc => isDigit_of_isAsciiDigit (h c hc)

theorem readMagnitude?_digits (hs : s ≠ []) (h : ∀ c ∈ s, isAsciiDigit c = true) :
    readMagnitude? s = some (digitsValue s, 0) := by
  simp [readMagnitude?, takeWhile_isDigit h, dropWhile_isDigit h, hs, readPower?]

theorem readMagnitude?_point (hs : s ≠ []) (h : ∀ c ∈ s, isAsciiDigit c = true)
    (ht : ∀ c ∈ t, isAsciiDigit c = true) :
    readMagnitude? (s ++ '.' :: t) = some (digitsValue (s ++ t), -(t.length : Int)) := by
  have hpoint : ¬ isDigit '.' = true := by decide
  have htake : (s ++ '.' :: t).takeWhile isDigit = s := by
    rw [List.takeWhile_append_of_pos fun c hc => isDigit_of_isAsciiDigit (h c hc),
      List.takeWhile_cons_of_neg hpoint, List.append_nil]
  have hdrop : (s ++ '.' :: t).dropWhile isDigit = '.' :: t := by
    rw [List.dropWhile_append_of_pos fun c hc => isDigit_of_isAsciiDigit (h c hc),
      List.dropWhile_cons_of_neg hpoint]
  simp [readMagnitude?, htake, hdrop, takeWhile_isDigit ht, dropWhile_isDigit ht, hs, readPower?]

/-- A point in front of the last `k` digits divides by `10 ^ k`. -/
theorem readMagnitude?_withPoint (hs : s ≠ []) (h : ∀ c ∈ s, isAsciiDigit c = true) (k : Nat) :
    readMagnitude? (withPoint s k) = some (digitsValue s, -(k : Int)) := by
  unfold withPoint
  split
  · rename_i hk
    rw [hk]
    exact readMagnitude?_digits hs h
  split
  · rename_i hk hlt
    have hne : s.take (s.length - k) ≠ [] := by
      rw [← List.length_pos_iff, List.length_take]
      omega
    rw [readMagnitude?_point hne (fun c hc => h c (List.mem_of_mem_take hc))
      fun c hc => h c (List.mem_of_mem_drop hc), List.take_append_drop, List.length_drop]
    congr 3
    omega
  · rename_i hk hle
    have hfraction : ∀ c ∈ List.replicate (k - s.length) '0' ++ s, isAsciiDigit c = true := by
      intro c hc
      rcases List.mem_append.mp hc with hc | hc
      · rw [List.eq_of_mem_replicate hc]
        decide
      · exact h c hc
    have hdigit : ∀ c ∈ s, isDigit c = true := fun c hc => isDigit_of_isAsciiDigit (h c hc)
    have hvalue : digitsValue (['0'] ++ (List.replicate (k - s.length) '0' ++ s)) =
        digitsValue s := by
      rw [← List.append_assoc, digitsValue_append hdigit,
        show ['0'] ++ List.replicate (k - s.length) '0' = List.replicate (k - s.length + 1) '0' from
          rfl, digitsValue_replicate_zero]
      simp
    have hread := readMagnitude?_point (s := ['0']) (by simp) (by decide) hfraction
    rw [List.singleton_append] at hread
    rw [hread, hvalue, List.length_append, List.length_replicate]
    congr 3
    omega

/-- A text of digits is read as the number that it denotes, if that is not too far out. -/
theorem ofText?_of_isPositional {c : Nat} {e : Int} (h : IsPositional s)
    (hread : readMagnitude? s = some (c, e)) (hrange : readable c e = true) :
    ofText? s = some (.finite false c e) := by
  have hnumeral : ∀ c ∈ s, isDigit c = true ∨ c ∈ ['.', 'e', 'E', '+', '-', '\n'] := by
    intro c hc
    rcases Formula.mem_isMagnitude h.isMagnitude hc with hdigit | rfl
    · exact .inl hdigit
    · exact .inr (by decide)
  have htrim := Formula.filter_trim_of_isMagnitude h.isMagnitude [] (by decide)
  rw [List.nil_append] at htrim
  rw [Formula.ofText?_eq hnumeral, htrim, Formula.splitSign_of_isMagnitude h.isMagnitude]
  simp [hread, hrange]

end

end Reckon.Decimal
