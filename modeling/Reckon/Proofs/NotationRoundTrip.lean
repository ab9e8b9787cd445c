import Reckon.Proofs.BracketedNotation

/-!
# Trees and their notation

A tree is read back from its notation if its leaves are plain and it is not too high, and a text
that was read is written again with its numbers respelled (`bracketed_faithful`). Both end with the
numbers: one below the smallest exponent is written as zero, a large fraction not at all
(`ofBracketed_of_tiny`).
-/

namespace Reckon

open Reckon.Text

theorem Formula.isWord_of_isIdentifier {s : List Char} (h : isIdentifier s = true) : IsWord s where
  ne_nil := by
    rintro rfl
    cases h
  isBlank c hc := isBlank_of_isWordChar (mem_isIdentifier h hc)

namespace Tree

/-! ### Trees that are read back -/

/-- The numbers have short forms, and the names are read as names. -/
def HasPlainLeaves : Tree → Prop
  | number a => a.HasShortForm
  | var x => Formula.isIdentifier x.toList = true ∧ Formula.hasOperator x.toList = false
  | unary _ a => a.HasPlainLeaves
  | binary _ a b => a.HasPlainLeaves ∧ b.HasPlainLeaves

theorem exists_of_bracketed {t : Tree} (ht : t.HasPlainLeaves) :
    ∃ l t', t.parts = .ok l ∧ t'.IsNotatedBy l ∧ t.same t' = true ∧ t'.height = t.height := by
  induction t with
  | number a =>
    obtain ⟨s, b, hs, hb, hsame⟩ := Decimal.exists_number?_of_hasShortForm ht
    exact ⟨[s], number b, by rw [parts, hs]; rfl, .number hb, hsame, rfl⟩
  | var x =>
    have hname : Formula.isName x.toList = true := Formula.Phrase.isName_name ⟨x.toList, ht.1, ht.2⟩
    have hx := IsNotatedBy.var hname
    rw [String.ofList_toList] at hx
    exact ⟨_, var x, rfl, hx, decide_eq_true rfl, rfl⟩
  | unary op a ih =>
    obtain ⟨l, a', hl, ha', hsame, hheight⟩ := ih ht
    refine ⟨_, unary op a', ?_, .unary ha', ?_, ?_⟩
    · rw [parts, hl]
      rfl
    · simp [same, hsame]
    · rw [height, height, hheight]
  | binary op a b iha ihb =>
    obtain ⟨l, a', hl, ha', hsame, hheight⟩ := iha ht.1
    obtain ⟨m, b', hm, hb', hsame', hheight'⟩ := ihb ht.2
    refine ⟨_, binary op a' b', ?_, .binary ha' hb', ?_, ?_⟩
    · rw [parts, hl, hm]
      simp [pure, Except.pure, bind, Except.bind]
    · simp [same, hsame, hsame']
    · rw [height, height, hheight, hheight']

theorem isWord_of_mem_names {t : Tree} (ht : t.HasPlainLeaves) {x : String} (hx : x ∈ t.names) :
    IsWord x.toList := by
  induction t with
  | number a => cases hx
  | var y =>
    obtain rfl := List.mem_singleton.mp hx
    exact Formula.isWord_of_isIdentifier ht.1
  | unary op a ih => exact ih ht hx
  | binary op a b iha ihb =>
    rcases List.mem_append.mp hx with hx | hx
    · exact iha ht.1 hx
    · exact ihb ht.2 hx

theorem exists_respelled {l : List (List Char)}
    (h : ∀ w ∈ l, ∀ a, Formula.number? w = some a → a.IsDisplayable) :
    ∃ l', l.mapM respelled = .ok l' := by
  induction l with
  | nil => exact ⟨[], rfl⟩
  | cons w l ih =>
    obtain ⟨l', hl'⟩ := ih fun v hv => h v (List.mem_cons_of_mem _ hv)
    obtain ⟨w', hw'⟩ : ∃ w', respelled w = .ok w' := by
      cases hw : Formula.number? w with
      | none => exact ⟨w, by rw [respelled, hw]⟩
      | some a =>
        obtain ⟨s, hs⟩ :=
          Decimal.exists_displayChars_of_isDisplayable (h w (List.mem_cons_self ..) a hw)
        exact ⟨s, by rw [respelled, hw]; exact hs⟩
    exact ⟨w' :: l', by rw [List.mapM_cons, hw', hl']; rfl⟩

/-- A tree whose leaves are plain and that is not too high is read back from its notation. A text
that is read is written again with its numbers respelled, unless one of them cannot be displayed. -/
theorem bracketed_faithful :
    (∀ t : Tree, t.HasPlainLeaves → t.height ≤ maxDepth →
      ∃ s t', t.bracketed = .ok s ∧ ofBracketed s = .ok t' ∧ t.same t' = true) ∧
    ∀ (s : List Char) (t : Tree), ofBracketed s = .ok t →
      (∀ w ∈ words s, ∀ a, Formula.number? w = some a → a.IsDisplayable) →
      ∃ s', t.bracketed = .ok s' ∧ (words s).mapM respelled = .ok (words s') := by
  constructor
  · intro t ht hheight
    obtain ⟨l, t', hl, hnotated, hsame, hheight'⟩ := exists_of_bracketed ht
    have hwords := words_bracketed fun x hx => isWord_of_mem_names ht hx
    rw [hl] at hwords
    obtain ⟨s, hs, hsplit⟩ := map_eq_ok_iff.mp hwords
    refine ⟨s, t', hs, ofBracketed_eq_ok_iff.mpr ?_, hsame⟩
    have hdepth : ([] : List OpenNode).length + t'.height ≤ maxDepth := by
      simpa [hheight'] using hheight
    have hread := hnotated.readTokens_append hdepth []
    rwa [List.append_nil, ← hsplit] at hread
  · intro s t hread hnumbers
    obtain ⟨l, hl⟩ := exists_respelled hnumbers
    have hwords := words_bracketed_of_ofBracketed hread
    rw [hl] at hwords
    obtain ⟨s', hs', rfl⟩ := map_eq_ok_iff.mp hwords
    exact ⟨s', hs', hl⟩

/-- A number with a zero behind the point is written without it and read back as the same number. -/
theorem bracketed_faithful_sum :
    let t : Tree := .binary .plus (.number (.finite false 20 (-1))) (.var "x")
    let s : List Char := ['(', ' ', '+', ' ', '2', '.', '0', ' ', 'x', ' ', ')']
    let s' : List Char := ['(', ' ', '+', ' ', '2', ' ', 'x', ' ', ')']
    t.bracketed = .ok s' ∧ (∃ t', ofBracketed s' = .ok t' ∧ t.same t' = true) ∧
      ofBracketed s = .ok t ∧ (words s).mapM respelled = .ok (words s') := by
  intro t s s'
  have hbracketed : t.bracketed = .ok s' := by decide +kernel
  have hread : ofBracketed s = .ok t := by decide +kernel
  have hshort : (Decimal.finite false 20 (-1)).IsShortInteger :=
    Decimal.isShortInteger_iff.mpr ⟨by decide +kernel, by decide +kernel⟩
  have ht : t.HasPlainLeaves := ⟨.inl hshort, by decide, by decide +kernel⟩
  have hnumbers : ∀ w ∈ words s, ∀ a, Formula.number? w = some a → a.IsDisplayable := by
    have hall : ∀ w ∈ words s, Formula.number? w ∈ [none, some (.finite false 20 (-1))] := by
      decide +kernel
    intro w hw a ha
    have ha' := hall w hw
    rw [ha] at ha'
    obtain rfl : a = .finite false 20 (-1) := by simpa using ha'
    exact .inl hshort
  obtain ⟨u, t', hu, ht', hsame⟩ := bracketed_faithful.1 t ht (by decide)
  obtain ⟨v, hv, hwords⟩ := bracketed_faithful.2 s t hread hnumbers
  rw [hbracketed] at hu hv
  cases hu
  cases hv
  exact ⟨hbracketed, ⟨t', ht', hsame⟩, hread, hwords⟩

/-- A number below the smallest exponent has few digits, but is read back as zero. A fraction that
is too large is read, but cannot be written. -/
theorem ofBracketed_of_tiny :
    (let a : Decimal := .finite false 1 (-1000030)
     a.isIntegral = false ∧ a.toRat? = some (((1 : ℤ) : ℚ) * 10 ^ (-1000030 : ℤ)) ∧
       (number a).bracketed = .ok ['0'] ∧ ofBracketed ['0'] = .ok (number .zero) ∧
         (number a).same (number .zero) = false) ∧
    ∃ s a, Formula.number? s = some a ∧ a.isIntegral = false ∧
      ofBracketed s = .ok (number a) ∧ (number a).bracketed = .error (.signal .overflow) := by
  constructor
  · intro a
    exact ⟨by decide, Decimal.toRat?_finite false 1 (-1000030), by decide +kernel,
      by decide +kernel, by decide +kernel⟩
  · obtain ⟨s, a, hword, hs, hfraction, hoverflow⟩ := Decimal.exists_number?_of_overflow
    refine ⟨s, a, hs, hfraction, ofBracketed_eq_ok_iff.mpr ?_, hoverflow⟩
    rw [words_of_isWord hword]
    exact (IsNotatedBy.number hs).readTokens_append (Nat.zero_le _) []

end Tree

end Reckon
