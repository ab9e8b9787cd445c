import Reckon.Proofs.Validated

/-!
# Tokens

A text is cut from left to right: at each place the longest symbol that begins there is one token,
or else the single character. No token is lost (`flatMap_text_tokens`), and none reaches over a
bracket (`tokens_append_bracket`). What the first tokens are says what the longest match finds at
their places (`exists_of_tokens_operator`, `longestMatch_of_tokens`).
-/

namespace Reckon.Formula

/-- What a text is cut into. -/
inductive Token where
  | operator (op : Operator)
  | character (c : Char)
  deriving DecidableEq

namespace Token

def text : Token → List Char
  | operator op => op.symbol
  | character c => [c]

def operator? : Token → Option Operator
  | operator op => some op
  | character _ => none

theorem text_ne_nil (t : Token) : t.text ≠ [] := by
  cases t with
  | operator op => exact op.symbol_ne_nil
  | character c => exact List.cons_ne_nil c []

end Token

/-- Cuts a text from left to right, by the longest match at each place. -/
def tokens (s : List Char) : List Token :=
  match s with
  | [] => []
  | c :: rest =>
    match _ : Operator.longestMatch (c :: rest) with
    | some op => .operator op :: tokens ((c :: rest).drop op.symbol.length)
    | none => .character c :: tokens rest
termination_by s.length
decreasing_by
  · exact Operator.length_drop_symbol_lt ‹_›
  · simp

section
variable {c : Char} {s t rest : List Char} {op : Operator} {l : List Token}

@[simp] theorem tokens_nil : tokens [] = [] := by
  rw [tokens]

theorem tokens_of_none (hm : Operator.longestMatch (c :: s) = none) :
    tokens (c :: s) = .character c :: tokens s := by
  rw [tokens]
  split
  · rename_i h
    rw [hm] at h
    cases h
  · rfl

theorem tokens_of_some (hm : Operator.longestMatch (op.symbol ++ s) = some op) :
    tokens (op.symbol ++ s) = .operator op :: tokens s := by
  obtain ⟨c, u, hsymbol⟩ := List.exists_cons_of_ne_nil op.symbol_ne_nil
  have hs : op.symbol ++ s = c :: (u ++ s) := by rw [hsymbol]; rfl
  have hdrop : (c :: (u ++ s)).drop op.symbol.length = s := by rw [← hs, List.drop_left]
  rw [hs] at hm ⊢
  rw [tokens]
  split
  · rename_i h
    rw [hm] at h
    cases h
    rw [hdrop]
  · rename_i h
    rw [hm] at h
    cases h

/-- A text is empty, begins with an operator or with some other character. -/
theorem tokens_cases (s : List Char) :
    s = [] ∨
      (∃ op t, s = op.symbol ++ t ∧ Operator.longestMatch s = some op ∧
        tokens s = .operator op :: tokens t) ∨
      ∃ c t, s = c :: t ∧ Operator.longestMatch s = none ∧ tokens s = .character c :: tokens t := by
  cases s with
  | nil => exact .inl rfl
  | cons c s =>
    cases hm : Operator.longestMatch (c :: s) with
    | none => exact .inr (.inr ⟨c, s, rfl, rfl, tokens_of_none hm⟩)
    | some op =>
      have hs := Operator.eq_append_of_longestMatch hm
      refine .inr (.inl ⟨op, _, hs, rfl, ?_⟩)
      rw [hs] at hm
      conv_lhs => rw [hs]
      exact tokens_of_some hm

theorem exists_of_tokens_operator (h : tokens s = .operator op :: l) :
    ∃ t, s = op.symbol ++ t ∧ Operator.longestMatch s = some op ∧ tokens t = l := by
  rcases tokens_cases s with rfl | ⟨op', t, hs, hm, htokens⟩ | ⟨c, t, -, -, htokens⟩
  · rw [tokens_nil] at h
    cases h
  · rw [h] at htokens
    cases htokens
    exact ⟨t, hs, hm, rfl⟩
  · rw [h] at htokens
    cases htokens

theorem exists_of_tokens_character (h : tokens s = .character c :: l) :
    ∃ t, s = c :: t ∧ Operator.longestMatch s = none ∧ tokens t = l := by
  rcases tokens_cases s with rfl | ⟨op', t, -, -, htokens⟩ | ⟨c', t, hs, hm, htokens⟩
  · rw [tokens_nil] at h
    cases h
  · rw [h] at htokens
    cases htokens
  · rw [h] at htokens
    cases htokens
    exact ⟨t, hs, hm, rfl⟩

/-- Where single characters are cut off no operator begins, and the rest is cut on its own. -/
theorem longestMatch_of_tokens (h : tokens (s ++ rest) = s.map .character ++ l) :
    (∀ v, v <:+ s → v ≠ [] → Operator.longestMatch (v ++ rest) = none) ∧ tokens rest = l := by
  induction s with
  | nil => exact ⟨fun v hv hne => absurd (List.suffix_nil.mp hv) hne, h⟩
  | cons c s ih =>
    obtain ⟨t, ht, hm, htokens⟩ := exists_of_tokens_character h
    obtain rfl := (List.cons.inj ht).2
    obtain ⟨hnone, hrest⟩ := ih htokens
    refine ⟨fun v hv hne => ?_, hrest⟩
    rcases List.suffix_cons_iff.mp hv with rfl | hv
    · exact hm
    · exact hnone v hv hne

/-- No token is lost. -/
theorem flatMap_text_tokens (s : List Char) : (tokens s).flatMap Token.text = s := by
  rcases tokens_cases s with rfl | ⟨op, t, rfl, hm, htokens⟩ | ⟨c, t, rfl, -, htokens⟩
  · rw [tokens_nil]
    rfl
  · have hlt : t.length < (op.symbol ++ t).length := by
      have := op.length_symbol_pos
      rw [List.length_append]
      omega
    rw [htokens, List.flatMap_cons, flatMap_text_tokens t]
    rfl
  · rw [htokens, List.flatMap_cons, flatMap_text_tokens t]
    rfl
termination_by s.length

/-- A bracket is a token, and none reaches over it. -/
theorem tokens_append_bracket (hc : c = '(' ∨ c = ')') (s t : List Char) :
    tokens (s ++ c :: t) = tokens s ++ .character c :: tokens t := by
  rcases tokens_cases s with rfl | ⟨op, u, rfl, hm, htokens⟩ | ⟨d, u, rfl, hm, htokens⟩
  · rw [List.nil_append, tokens_of_none (longestMatch_bracket hc t), tokens_nil]
    rfl
  · have hlt : u.length < (op.symbol ++ u).length := by
      have := op.length_symbol_pos
      rw [List.length_append]
      omega
    have hmatch := (longestMatch_append_bracket hc (op.symbol ++ u) t).trans hm
    rw [List.append_assoc] at hmatch ⊢
    rw [htokens, tokens_of_some hmatch, tokens_append_bracket hc u t]
    rfl
  · have hmatch := (longestMatch_append_bracket hc (d :: u) t).trans hm
    rw [htokens]
    rw [List.cons_append] at hmatch ⊢
    rw [tokens_of_none hmatch, tokens_append_bracket hc u t]
    rfl
termination_by s.length

end

end Reckon.Formula
