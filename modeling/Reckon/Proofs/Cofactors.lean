import Reckon.Proofs.PreparedAround
import Reckon.Proofs.Scientific
import Reckon.Proofs.ShiftedProducts
import Reckon.Proofs.Spelling
import Reckon.Proofs.SwappedValues

/-!
# Numbers in E notation behind a factor

Behind a `*` the two factors of a number in E notation come apart: what stands in front of the `*`
is multiplied by the digits first and by the power of ten last (`Cofactor.readLevels_text`). A name
is one factor. The products are the same number (`Cofactor.stopsOrAgrees_chainValue`) as long as the
digits alone make no product that is too large, and no digit is lost in a product that is too small
to have all its digits (`Cofactor.Scales`).
-/

namespace Reckon

namespace Formula

open Reckon.Text

/-- The reader takes what stands in brackets as the first operand of a chain. -/
theorem readLevels_inBrackets_append {levels : Nat} {u s : List Char} {t : Tree} {op : Binary}
    (hu : Nested u) (hm : Operator.longestMatch s = some (.binary op)) :
    readLevels (levels + 1) (Tree.inBrackets u ++ s) = .ok t ↔
      ∃ left, readLevels levels (Tree.inBrackets u) = .ok left ∧
        readChain (readLevels levels) (Tree.inBrackets u ++ s) (some left) s = .ok t := by
  have hs : s ≠ [] := by
    rintro rfl
    cases hm
  have hread := readLevels_around_succ levels [] s u
  rw [around, List.nil_append, enclosed?_group_append hu hs] at hread
  have hback : isBinaryOperator (backTrack (Tree.inBrackets u).reverse) = false := by
    have h := isBinaryOperator_backTrack_bracket [] (u.reverse ++ ['('])
    exact (by simpa [Tree.inBrackets] using h : _ = isBinaryOperator (backTrack [])).trans
      (by decide)
  have hfirst : argument none (Tree.inBrackets u ++ s) = (Tree.inBrackets u, s) := by
    rw [argument, argumentFrom_inBrackets hu, List.append_nil,
      argumentFrom_stop hm (by simp [Tree.inBrackets]) hback rfl, List.reverse_reverse]
  have hnone : Operator.longestMatch (Tree.inBrackets u ++ s) = none :=
    longestMatch_bracket (.inl rfl) _
  rw [hread]
  simp only
  rw [readChain_operand_eq_ok_iff (by simp [Tree.inBrackets]) hnone, hfirst]
  simp [hs]

/-- The power of ten takes two levels. -/
theorem Scientific.two_le_of_readLevels (l : Scientific) {levels : Nat} {t : Tree}
    (h : readLevels levels l.powerOfTen.text = .ok t) : 2 ≤ levels := by
  have hp := l.wellFormed_powerOfTen
  rcases levels with _ | _ | levels
  · cases h
  · have henclosed := Phrase.enclosed?_text_append hp (s := []) fun h => by cases h
    have hnumber : number? l.powerOfTen.text = none := by
      rw [number?, Phrase.isNumber_text hp rfl fun op l h => by cases h]
      rfl
    have hnone : Operator.longestMatch l.powerOfTen.text = none := by
      rw [l.text_powerOfTen]
      exact longestMatch_of_isDigit (.inl (by decide)) _
    rw [List.append_nil] at henclosed
    rw [Phrase.readLevels_succ (Phrase.text_ne_nil hp) henclosed (Phrase.isName_text rfl),
      hnumber] at h
    simp only at h
    obtain ⟨_, _, _, _, _, _, _, _, _, hleft, -⟩ :=
      exists_of_readChain_operands (Phrase.text_ne_nil hp) hnone h
    cases hleft
  · omega

/-- A formula that a number is multiplied by, with the sign that may stand in front of the number.
-/
structure Cofactor where
  text : List Char
  tree : Tree
  readFormula_text : readFormula text = .ok tree
  sign : Option Binary
  isSign : ∀ op ∈ sign, op.isSign = true

namespace Cofactor
variable (f : Cofactor) (l : Scientific) {p : Phrase}

def signText : List Char :=
  f.sign.elim [] Binary.symbol

/-- The product with `w`. -/
def times (w : List Char) : List Char :=
  Tree.inBrackets f.text ++ '*' :: (f.signText ++ w)

theorem times_eq_around (w : List Char) :
    f.times w = around [] ('*' :: (f.signText ++ w)) f.text := by
  rw [times, around, List.nil_append]

/-! ### Preparing -/

theorem wellFormed_withSign (h : p.WellFormed) (hrank : p.rank ≤ Binary.times.rank) :
    (Phrase.withSign f.sign p).WellFormed :=
  Phrase.wellFormed_withSign f.isSign h hrank

theorem signText_cases : f.signText = [] ∨ f.signText = ['+'] ∨ f.signText = ['-'] := by
  rw [signText]
  rcases sign_cases f.isSign with h | h | h <;> rw [h]
  · exact .inl rfl
  · exact .inr (.inl rfl)
  · exact .inr (.inr rfl)

theorem normalize_sign_append (w : List Char) :
    normalize ('*' :: (f.signText ++ w)) = '*' :: (f.signText ++ normalize w) := by
  have hmark : ∀ {c : Char} (s : List Char), c ∈ ['(', ')', ';', '*', '+', '-'] →
      normalize (c :: s) = c :: normalize s := fun s hc => normalize_append_mark hc [] s
  rw [hmark _ (by decide)]
  rcases f.signText_cases with h | h | h <;> rw [h]
  · rfl
  · rw [List.singleton_append, hmark _ (by decide), List.singleton_append]
  · rw [List.singleton_append, hmark _ (by decide), List.singleton_append]

theorem expandScientific_sign_append (w : List Char) :
    expandScientific ('*' :: (f.signText ++ w)) = '*' :: (f.signText ++ expandScientific w) := by
  have hmark : ∀ {c : Char} (s : List Char), c ≠ 'e' → isDigit c = false →
      expandScientific (c :: s) = c :: expandScientific s := by
    intro c s hne hdigit
    simp [expandScientific, expandScientificFrom, hne, hdigit]
  rw [hmark _ (by decide) (by decide)]
  rcases f.signText_cases with h | h | h <;> rw [h]
  · rfl
  · rw [List.singleton_append, hmark _ (by decide) (by decide), List.singleton_append]
  · rw [List.singleton_append, hmark _ (by decide) (by decide), List.singleton_append]

/-- No product is put in behind the `*`. -/
theorem prepared_times {w : List Char} (h : p.WellFormed) (hrank : p.rank ≤ Binary.times.rank)
    (hplain : p.IsPlain) (hw : expandScientific (normalize w) = p.text) :
    prepared (f.times w) = Tree.inBrackets (prepared f.text) ++
      (Binary.times.symbol ++ (Phrase.withSign f.sign p).text) := by
  have hp := f.wellFormed_withSign h hrank
  have hbehind : preparedBehind ('*' :: (f.signText ++ w)) =
      Binary.times.symbol ++ (Phrase.withSign f.sign p).text := by
    have hoperator := @Phrase.insertProductsFrom_binary [')'] [] _ hp .times
    have hoperand := @Phrase.insertProductsFrom_text (Binary.times.symbol.reverse ++ [')']) [] _ hp
      (Phrase.isPlain_withSign hplain) (Phrase.isBreak_symbol (by decide) _) (by simp)
    rw [List.append_nil] at hoperator hoperand
    rw [preparedBehind, f.normalize_sign_append, f.expandScientific_sign_append, hw, signText,
      ← Phrase.text_withSign]
    rw [hoperand, insertProductsFrom, List.append_nil] at hoperator
    exact hoperator
  rw [times_eq_around, prepared_around, preparedBefore_nil, hbehind, around, List.nil_append]

/-! ### Reading -/

/-- The digits with the sign. -/
def digits : Phrase :=
  .withSign f.sign (.literal l.mantissaLiteral)

/-- The name with the sign. -/
def name (x : Name) : Phrase :=
  .withSign f.sign (.name x)

/-- What the product with the number is read as. -/
def splitTree : Tree :=
  .binary .times (.binary .times f.tree (f.digits l).tree) l.powerOfTen.tree

/-- What the product with a name is read as. -/
def wholeTree (x : Name) : Tree :=
  .binary .times f.tree (f.name x).tree

theorem wellFormed_digits : (f.digits l).WellFormed :=
  f.wellFormed_withSign (.literal _) (Nat.zero_le _)

theorem wellFormed_name (x : Name) : (f.name x).WellFormed :=
  f.wellFormed_withSign (.name x) (Nat.zero_le _)

theorem rank_digits : (f.digits l).rank < Binary.times.rank := by
  rw [digits, Phrase.rank_withSign]
  exact (by decide : 0 < Binary.times.rank)

theorem rank_name (x : Name) : (f.name x).rank < Binary.times.rank := by
  rw [name, Phrase.rank_withSign]
  exact (by decide : 0 < Binary.times.rank)

theorem prepared_text :
    prepared (f.times l.text) = Tree.inBrackets (prepared f.text) ++ (Binary.times.symbol ++
      ((f.digits l).text ++ (Binary.times.symbol ++ l.powerOfTen.text))) := by
  rw [f.prepared_times l.wellFormed_phrase (Nat.le_refl _) l.isPlain_phrase
    l.expandScientific_normalize_text, Phrase.text_withSign, digits, Phrase.text_withSign,
    List.append_assoc]
  rfl

theorem prepared_name {x : Name} (hx : IsNeat x.chars) :
    prepared (f.times x.chars) =
      Tree.inBrackets (prepared f.text) ++ (Binary.times.symbol ++ (f.name x).text) := by
  refine f.prepared_times (.name x) (Nat.zero_le _) hx ?_
  have hchain := Phrase.isChain_text (.name x) hx
  rw [normalize_eq_self (isPlainChar_of_isNeat hx)]
  exact expandScientificFrom_eq_self hchain (by simp)

theorem readsWithin : ReadsWithin (maxDepth + 1) f.text f.tree :=
  (readFormula_eq_ok_iff.mp f.readFormula_text).2

theorem nested_text : Nested (prepared f.text) :=
  (spells_of_readLevels f.readsWithin.2).nested

/-- The formula in brackets is read as its tree or not at all. -/
theorem eq_tree_of_readLevels {levels : Nat} {t : Tree}
    (h : readLevels levels (Tree.inBrackets (prepared f.text)) = .ok t) : t = f.tree := by
  cases levels with
  | zero => cases h
  | succ levels =>
    rw [readLevels_of_enclosed? (enclosed?_inBrackets f.nested_text)] at h
    have h' := readLevels_of_le (le_max_left levels (maxDepth + 1)) h
    have hread := readLevels_of_le (le_max_right levels (maxDepth + 1)) f.readsWithin.2
    exact Except.ok.inj (h'.symm.trans hread)

section
variable {below : List Char → Except Failure Tree} {whole : List Char} (left : Tree)

/-- The digits and the power of ten are two more operands of the chain. -/
theorem readChain_digits :
    readChain below whole (some left) (Binary.times.symbol ++
        ((f.digits l).text ++ (Binary.times.symbol ++ l.powerOfTen.text))) =
      below (f.digits l).text >>= fun digits => below l.powerOfTen.text >>= fun power =>
        .ok (.binary .times (.binary .times left digits) power) := by
  have hm := Phrase.longestMatch_binary l.wellFormed_powerOfTen .times []
  have hpower : ∀ t, readChain below whole (some t) (Binary.times.symbol ++ l.powerOfTen.text) =
      below l.powerOfTen.text >>= fun power => .ok (.binary .times t power) := by
    intro t
    have h := @Phrase.readChain_join below whole .times _ l.wellFormed_powerOfTen
      l.rank_powerOfTen [] (.inl rfl) (by simp) t
    simpa only [List.append_nil, readChain_some_nil] using h
  rw [List.append_nil] at hm
  rw [Phrase.readChain_join (f.wellFormed_digits l) (f.rank_digits l)
    (.inr ⟨.times, hm, Nat.le_refl _⟩) fun _ => head_symbol_append (by decide) _]
  simp only [hpower]

theorem readChain_name (x : Name) :
    readChain below whole (some left) (Binary.times.symbol ++ (f.name x).text) =
      below (f.name x).text >>= fun operand => .ok (.binary .times left operand) := by
  have h := @Phrase.readChain_join below whole .times _ (f.wellFormed_name x) (f.rank_name x) []
    (.inl rfl) (by simp) left
  simpa only [List.append_nil, readChain_some_nil] using h

end

/-- Wherever the product with the number is read, the product with a name is. -/
theorem readLevels_text {x : Name} (hx : IsNeat x.chars) {levels : Nat} {t : Tree}
    (ht : readLevels levels (prepared (f.times l.text)) = .ok t) :
    t = f.splitTree l ∧ readLevels levels (prepared (f.times x.chars)) = .ok (f.wholeTree x) := by
  cases levels with
  | zero => cases ht
  | succ levels =>
    rw [prepared_text, readLevels_inBrackets_append f.nested_text
      (Phrase.longestMatch_binary (f.wellFormed_digits l) .times _)] at ht
    obtain ⟨left, hleft, ht⟩ := ht
    obtain rfl := f.eq_tree_of_readLevels hleft
    rw [readChain_digits, bind_eq_ok_iff] at ht
    obtain ⟨digits, hdigits, ht⟩ := ht
    obtain ⟨power, hpower, ht⟩ := bind_eq_ok_iff.mp ht
    cases ht
    have hlevels := l.two_le_of_readLevels hpower
    obtain rfl := Phrase.eq_tree_of_readLevels (f.wellFormed_digits l) hdigits
    obtain rfl := Phrase.eq_tree_of_readLevels l.wellFormed_powerOfTen hpower
    refine ⟨rfl, ?_⟩
    have hname : readLevels levels (f.name x).text = .ok (f.name x).tree := by
      refine Phrase.readLevels_text_of_lt (f.wellFormed_name x) ?_
      exact (Phrase.levels_withSign_le).trans_lt hlevels
    rw [f.prepared_name hx, readLevels_inBrackets_append f.nested_text
      (by simpa using Phrase.longestMatch_binary (f.wellFormed_name x) .times [])]
    exact ⟨f.tree, hleft, by rw [readChain_name, hname]; rfl⟩

/-! ### Brackets and characters -/

theorem nested_append {s : List Char} (hs : Nested s) :
    Nested (Tree.inBrackets (prepared f.text) ++ (Binary.times.symbol ++ s)) :=
  f.nested_text.inBrackets.append
    ((Nested.of_forall (isBracket_of_mem_symbol (.binary .times))).append hs)

theorem nested_prepared_text : Nested (prepared (f.times l.text)) := by
  rw [prepared_text]
  refine f.nested_append ((Phrase.nested_text (f.wellFormed_digits l)).append ?_)
  exact (Nested.of_forall (isBracket_of_mem_symbol (.binary .times))).append
    (Phrase.nested_text l.wellFormed_powerOfTen)

theorem nested_prepared_name {x : Name} (hx : IsNeat x.chars) :
    Nested (prepared (f.times x.chars)) := by
  rw [f.prepared_name hx]
  exact f.nested_append (Phrase.nested_text (f.wellFormed_name x))

theorem validate_prepared_name {x : Name} (hx : IsNeat x.chars) :
    validate (prepared (f.times x.chars)) = .ok () := by
  have hp := f.wellFormed_name x
  have hname := @Phrase.validateCharacters_text _ hp (Phrase.isPlain_withSign hx) [] (by simp)
  have htimes := @validateCharacters_binary .times (f.name x).text (by decide)
    (by simpa using Phrase.longestMatch_binary hp .times [])
    (fun b hb => @Phrase.isSign_of_longestMatch_text _ hp [] (by simp) b (by simpa using hb))
    (by simpa using Phrase.head_text_not_mem hp [])
  have haround := f.prepared_name hx
  rw [List.append_nil] at hname
  rw [hname] at htimes
  refine validate_eq_ok_iff.mpr ⟨isBalanced_of_nested (f.nested_prepared_name hx), ?_⟩
  rw [haround, ← List.nil_append (Tree.inBrackets _ ++ _)]
  exact validateCharacters_around.mpr
    ⟨rfl, (validate_eq_ok_iff.mp f.readsWithin.1).2, htimes⟩

/-! ### Values -/

/-- The number with the sign. -/
def signed (a : Decimal) : Decimal :=
  f.sign.elim a (signedValue · a)

theorem signed_finite (c : Nat) (e : Int) :
    f.signed (.finite false c e) = .finite (f.sign = some .minus) c e := by
  rw [signed]
  rcases sign_cases f.isSign with h | h | h <;> rw [h] <;> rfl

/-- The number `a` can be multiplied by the digits first and by the power of ten last. -/
structure Scales [Binary64.Library] (a : Decimal) : Prop where
  /-- The product with the digits is not too large. -/
  exists_product : ∃ d, Binary.times.apply a (f.signed l.mantissaValue) = .ok d
  /-- If digits of that product are lost, neither product is too small to have all its digits. -/
  mayShift : ∀ p q, a.toRat? = some p → (f.signed l.mantissaValue).toRat? = some q →
    Context.working.MayShift (p * q) (Decimal.signed l.isNegative (Decimal.digitsValue l.exponent))
  /-- There is no negative zero among the digits. -/
  coefficient_ne_zero : f.sign = some .minus → l.coefficient ≠ 0

section
variable [Binary64.Library] {unit : AngleUnit} {b : Bindings} (levels : Nat)

theorem valueLevels_digits :
    Tree.valueLevels readFormula unit b (levels + 1) [] (f.digits l).tree =
      .ok (f.signed l.mantissaValue) := by
  rw [digits, Phrase.tree_withSign_literal]
  rfl

theorem valueLevels_powerOfTen :
    Tree.valueLevels readFormula unit b (levels + 2) [] l.powerOfTen.tree =
      Binary.power.apply (.ofNat 10) l.powerValue := by
  rw [l.tree_powerOfTen, Tree.valueLevels_binary, Tree.chainValue_binary]
  rfl

theorem exists_valueLevels_name {x : Name}
    (hconstant : namedConstant? (String.ofList x.chars) = none)
    (hx : b.lookup? (String.ofList x.chars) = some (.text l.text))
    (hzero : f.sign = some .minus → l.coefficient ≠ 0) :
    ∃ v, Tree.valueLevels readFormula unit b (levels + 2) [] (f.name x).tree = .ok v ∧
      (f.signed l.value).Alike v := by
  have hvar : ∀ levels, Tree.valueLevels readFormula unit b (levels + 1) [] (.var _) =
      .ok l.value := l.valueLevels_var hconstant hx
  have hsign := f.isSign
  rw [name, signed]
  cases h : f.sign with
  | none => exact ⟨l.value, hvar _, .refl _⟩
  | some op =>
    have hplaces := l.places_le
    have hexponent := l.exponent_le
    simp only [Context.working, Numeric.maxExactExponent] at hplaces hexponent
    obtain ⟨v, hv, halike⟩ := Binary.exists_apply_sign (hsign op h) l.coefficient_lt
      (e := Decimal.signed l.isNegative (Decimal.digitsValue l.exponent) - l.places)
      (by
        simp only [Decimal.signed, Context.working, Context.tiny, Context.minExponent]
        split <;> omega)
      (by
        simp only [Decimal.signed, Context.working, Context.maxExponent]
        split <;> omega)
      (fun hop => hzero (hop ▸ h))
    refine ⟨v, ?_, halike⟩
    have htree : (Phrase.withSign (some op) (.name x)).tree =
        .binary op .zero (.var (String.ofList x.chars)) := rfl
    rw [htree, Tree.valueLevels_binary, Tree.chainValue_binary, hvar]
    exact hv

/-- A product of three factors and a product with a name for two of them. -/
theorem stopsOrAgrees_chainValue {b' : Bindings} {x : Name}
    (hconstant : namedConstant? (String.ofList x.chars) = none)
    (hx : b'.lookup? (String.ofList x.chars) = some (.text l.text)) (hnames : b.SameAt b' f.tree)
    (hscales : ∀ a, f.tree.unlimitedValue unit b [] = .ok a → f.Scales l a) :
    StopsOrAgrees (Tree.chainValue (Tree.valueLevels readFormula unit b levels []) (f.splitTree l))
      (Tree.chainValue (Tree.valueLevels readFormula unit b' levels []) (f.wholeTree x)) := by
  have hleft : Tree.chainValue (Tree.valueLevels readFormula unit b' levels []) f.tree =
      Tree.chainValue (Tree.valueLevels readFormula unit b levels []) f.tree :=
    Tree.chainValue_congr (P := b.SameAt b') (fun _ _ _ h => ⟨h.left, h.right⟩)
      (fun t ht => Tree.valueLevels_congr levels ht.agreeAt) hnames
  rw [splitTree, wholeTree, Tree.chainValue_binary, Tree.chainValue_binary, Tree.chainValue_binary,
    hleft]
  cases hvalue : Tree.chainValue (Tree.valueLevels readFormula unit b levels []) f.tree with
  | error e => exact .refl _
  | ok a =>
    have hlimit : f.tree.unlimitedValue unit b [] = .ok a :=
      (Tree.stopsOrIs_chainValue (Tree.stopsOrIs_valueLevels levels) f.tree).of_ok hvalue
    obtain ⟨⟨d, hd⟩, hshift, hzero⟩ := hscales a hlimit
    rcases levels with _ | _ | levels
    · exact .inl rfl
    · left
      have hdeep : Tree.valueLevels readFormula unit b 1 [] l.powerOfTen.tree =
          .error .tooDeep := by
        rw [l.tree_powerOfTen]
        rfl
      rw [valueLevels_digits, hdeep]
      change (Binary.times.apply a (f.signed l.mantissaValue) >>= fun _ => .error .tooDeep) = _
      rw [hd]
      rfl
    · obtain ⟨v, hv, halike⟩ := f.exists_valueLevels_name l levels hconstant hx hzero
      rw [valueLevels_digits, valueLevels_powerOfTen, hv]
      rw [Scientific.mantissaValue, signed_finite] at hd hshift ⊢
      rw [Scientific.value, signed_finite, sub_eq_neg_add] at halike
      have hover : Binary.times.apply a (.finite (f.sign = some .minus) l.coefficient
          (-(l.places : Int))) ≠ .error (.undefined (.tooLarge "*")) := by
        rw [hd]
        rintro ⟨⟩
      exact .inr (Binary.agree_times_power_ten l.exponent_le hover
        (fun q hq => hshift q _ hq rfl) halike)

end

end Cofactor

end Formula

end Reckon
