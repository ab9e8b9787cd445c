import Reckon.Proofs.Shown
import Reckon.Proofs.Validated

/-!
# Formulas that are read back

The formula of a tree, with two signs in a row made one, is prepared already, and reading it gives a
tree with the same value (`read_formula`). This holds of every tree without `log` whose names are
neat and whose numbers have few digits (`readable_formula`); a number below the smallest exponent is
written as zero (`read_formula_of_tiny`).
-/

namespace Reckon

namespace Formula

open Reckon.Text
open Phrase (groupedIf)

namespace Phrase
variable {op o : Binary} {l p r : Phrase}

/-! ### Making one sign of two -/

theorem IsPlain.add (hop : op ≠ .log) (hl : l.IsPlain) (hr : r.IsPlain) : (add op l r).IsPlain := by
  induction r with
  | literal | name | group | apply => exact ⟨hop, hl, hr⟩
  | signed o p =>
    refine ⟨ne_log_of_isSign (isSign_signProduct op o), hl, hr⟩
  | join o p q ihp ihq =>
    rw [Phrase.add]
    split
    · exact ⟨hr.1, ihp hr.2.1, hr.2.2⟩
    · exact ⟨hop, hl, hr⟩

theorem IsPlain.multiplySigned (o : Binary) (hl : l.IsPlain) (hp : p.IsPlain) :
    (multiplySigned o l p).IsPlain := by
  have htimes : Binary.times ≠ .log := by decide
  induction p with
  | literal | name | group | apply | signed => exact ⟨htimes, hl, hp⟩
  | join op p q ihp ihq =>
    rw [Phrase.multiplySigned]
    split
    · exact ⟨htimes, ihp hp.2.1, hp.2.2⟩
    · exact ⟨htimes, hl, hp⟩

theorem IsPlain.multiply (hl : l.IsPlain) (hr : r.IsPlain) : (multiply l r).IsPlain := by
  have htimes : Binary.times ≠ .log := by decide
  induction r with
  | literal | name | group | apply => exact ⟨htimes, hl, hr⟩
  | signed o p => exact hl.multiplySigned o hr
  | join op p q ihp ihq =>
    rw [Phrase.multiply]
    split
    · exact ⟨htimes, ihp hr.2.1, hr.2.2⟩
    · exact ⟨htimes, hl, hr⟩

theorem IsPlain.scale (hop : op ≠ .log) (hl : l.IsPlain) (hr : r.IsPlain) :
    (scale op l r).IsPlain := by
  rw [Phrase.scale]
  split
  · exact hl.multiply hr
  · exact ⟨hop, hl, hr⟩

theorem IsPlain.outward (hop : op ≠ .log) (hl : l.IsPlain) (hr : r.IsPlain) :
    (outward op l r).IsPlain := by
  cases l with
  | literal | name | group | apply | join | signed => exact IsPlain.scale hop hl hr

theorem IsPlain.collapse (hp : p.IsPlain) : p.collapse.IsPlain := by
  induction p with
  | literal | name => exact hp
  | group _ ih | apply _ _ ih | signed _ _ ih => exact ih hp
  | join op l r ihl ihr =>
    rw [Phrase.collapse]
    split
    · exact .add hp.1 (ihl hp.2.1) (ihr hp.2.2)
    split
    · exact .outward hp.1 (ihl hp.2.1) (ihr hp.2.2)
    · exact ⟨hp.1, ihl hp.2.1, ihr hp.2.2⟩

theorem IsPlain.groupedIf {brackets : Bool} (hp : p.IsPlain) : (groupedIf brackets p).IsPlain := by
  cases brackets with
  | true | false => exact hp

end Phrase

theorem isPlain_of_writes {t : Tree} {p : Phrase} (h : Writes t p) : p.IsPlain := by
  induction h with
  | literal hl | negative hl => exact hl
  | name hx => exact hx
  | apply _ ih => exact ih
  | join hlog _ _ _ iha ihb => exact ⟨hlog, iha.groupedIf, ihb.groupedIf⟩

/-! ### Reading -/

/-- A formula that is written and not too long is prepared already. If reading it does not go too
deep, it gives a tree with the value of the one that was written. -/
theorem read_formula {t : Tree} {s : List Char} (ht : t.IsPrintable) (h : t.formula = .ok s)
    (hlength : (collapseSigns s).length ≤ maxLength) :
    prepare (collapseSigns s) = .ok (collapseSigns s) ∧
      (read (collapseSigns s) = .error .tooDeep ∨
        ∃ t', read (collapseSigns s) = .ok t' ∧ ∀ I ρ, t'.exact I ρ = t.exact I ρ) := by
  obtain ⟨p, hp, rfl⟩ := exists_writes ht h
  have hcollapsed := collapsed_of_writes hp
  have htext : collapseSigns p.text = p.collapse.text := by
    simpa [collapseSigns] using (collapsesTo_of_writes hp).text []
  rw [htext] at hlength ⊢
  refine ⟨Phrase.prepare_text hcollapsed.wellFormed (isPlain_of_writes hp).collapse hlength, ?_⟩
  rcases Phrase.read_text hcollapsed.wellFormed with hread | hread
  · exact .inr ⟨_, hread, hcollapsed.value⟩
  · exact .inl hread

end Formula

/-! ### Numbers of few digits -/

namespace Tree

def numbers : Tree → List Decimal
  | number a => [a]
  | var _ => []
  | unary _ a => a.numbers
  | binary _ a b => a.numbers ++ b.numbers

/-- Every operator but `log`, names of small letters and then digits, and numbers that are short
integers or have few digits. -/
def IsWritable : Tree → Prop
  | number a => a.IsShortInteger ∨ a.HasFewDigits
  | var x => Formula.IsNeat x.toList ∧ Formula.hasOperator x.toList = false
  | unary _ a => a.IsWritable
  | binary op a b => op ≠ .log ∧ a.IsWritable ∧ b.IsWritable

/-- No integer of the tree is too long to be written out. -/
def HasShortIntegers (t : Tree) : Prop :=
  ∀ a ∈ t.numbers, a.isIntegral = true → a.IsShortInteger

theorem isPrintable_of_isWritable {t : Tree} (ht : t.IsWritable) (h : t.HasShortIntegers) :
    t.IsPrintable := by
  induction t with
  | number a => exact Decimal.isShown_of_fewDigits ht (h a (List.mem_singleton_self a))
  | var x => exact ht
  | unary op a ih => exact ih ht h
  | binary op a b iha ihb =>
    exact ⟨ht.1, iha ht.2.1 fun n hn => h n (List.mem_append_left _ hn),
      ihb ht.2.2 fun n hn => h n (List.mem_append_right _ hn)⟩

theorem hasShortIntegers_of_formula {t : Tree} {s : List Char} (h : t.formula = .ok s) :
    t.HasShortIntegers := by
  induction t generalizing s with
  | number a =>
    intro n hn
    rw [List.mem_singleton.mp hn]
    exact Decimal.isShortInteger_of_displayChars h
  | var x => nofun
  | unary op a ih =>
    obtain ⟨u, hu, -⟩ := bind_eq_ok_iff.mp h
    exact ih hu
  | binary op a b iha ihb =>
    obtain ⟨u, hu, h⟩ := bind_eq_ok_iff.mp h
    obtain ⟨_, _, h⟩ := bind_eq_ok_iff.mp h
    obtain ⟨v, hv, -⟩ := bind_eq_ok_iff.mp h
    intro n hn
    rcases List.mem_append.mp hn with hn | hn
    · exact iha hu n hn
    · exact ihb hv n hn

end Tree

namespace Formula

/-- The formula of a tree whose numbers have few digits is accepted unless it is too long. If
reading it does not go too deep, it gives a tree with the value of the one that was written. -/
theorem readable_formula {t : Tree} (ht : t.IsWritable) :
    ∀ s, t.formula = .ok s → (collapseSigns s).length ≤ maxLength →
      prepare (collapseSigns s) = .ok (collapseSigns s) ∧
        validate (collapseSigns s) = .ok () ∧
        (read (collapseSigns s) = .error .tooDeep ∨
          ∃ t', read (collapseSigns s) = .ok t' ∧ ∀ I ρ, t'.exact I ρ = t.exact I ρ) := by
  intro s hs hlength
  have hprintable := Tree.isPrintable_of_isWritable ht (Tree.hasShortIntegers_of_formula hs)
  obtain ⟨hprepare, hread⟩ := read_formula hprintable hs hlength
  refine ⟨hprepare, ?_, hread⟩
  obtain ⟨p, hp, rfl⟩ := exists_writes hprintable hs
  have htext : collapseSigns p.text = p.collapse.text := by
    simpa [collapseSigns] using (collapsesTo_of_writes hp).text []
  rw [htext]
  exact Phrase.validate_text (collapsed_of_writes hp).wellFormed (isPlain_of_writes hp).collapse

/-- A difference whose second operand is a negative number is read back as a sum. -/
theorem readable_formula_difference :
    let t : Tree := .binary .minus (.var "x") (.number (.finite true 5 (-1)))
    validate ['x', '+', '0', '.', '5'] = .ok () ∧
      ∃ t', read ['x', '+', '0', '.', '5'] = .ok t' ∧ ∀ I ρ, t'.exact I ρ = t.exact I ρ := by
  intro t
  have hfew : (Decimal.finite true 5 (-1)).HasFewDigits := by
    refine ⟨-5, -1, ?_, by decide, by decide⟩
    simp [Decimal.toRat?, Decimal.signed]
  have ht : t.IsWritable :=
    ⟨by decide, ⟨⟨['x'], [], rfl, by simp, by decide, by simp⟩, by decide +kernel⟩, .inr hfew⟩
  obtain ⟨-, hvalidate, hread | hread⟩ := readable_formula ht ['x', '-', '-', '0', '.', '5']
    (by decide +kernel) (by decide)
  · have : read ['x', '+', '0', '.', '5'] ≠ .error .tooDeep := by decide +kernel
    exact absurd hread this
  · exact ⟨hvalidate, hread⟩

/-- A number below the smallest exponent has few digits, but is written as zero. -/
theorem read_formula_of_tiny :
    let a : Decimal := .finite false 1 (-1000030)
    (Tree.number a).formula = .ok ['0'] ∧ read (collapseSigns ['0']) = .ok (.number .zero) ∧
      ∀ I ρ, (Tree.number .zero).exact I ρ ≠ (Tree.number a).exact I ρ := by
  intro a
  refine ⟨by decide +kernel, by decide +kernel, fun I ρ h => ?_⟩
  have hvalue : Decimal.zero.toRat? = a.toRat? := h
  rw [Decimal.toRat?_zero, Decimal.toRat?_finite, Decimal.signed_false, Option.some_inj] at hvalue
  have hpos : (0 : ℚ) < ((1 : ℕ) : ℤ) * 10 ^ (-1000030 : ℤ) := by
    rw [Nat.cast_one, Int.cast_one, one_mul]
    exact ten_zpow_pos _
  exact hpos.ne hvalue

end Formula

end Reckon
