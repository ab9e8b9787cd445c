import Reckon.Text.CaseTable

/-!
# Small letters

`lowercase` writes every capital letter of every script as its small letter. Two letters need more
than a table: a capital I with a dot becomes an i and a combining dot, and a capital sigma becomes
the final sigma when a letter stands before it and none behind it.
-/

namespace Reckon.Text

def inRanges (ranges : List (Nat × Nat)) (n : Nat) : Bool :=
  ranges.any fun (first, last) => first ≤ n && n ≤ last

def isCased (c : Char) : Bool :=
  inRanges casedRanges c.toNat

def isPassedOver (c : Char) : Bool :=
  inRanges passedOverRanges c.toNat

/-- The small letter of a single character, the character itself if it has none. -/
def smallLetter (c : Char) : Char :=
  if c.toNat < 128 then
    if 'A' ≤ c ∧ c ≤ 'Z' then Char.ofNat (c.toNat + 32) else c
  else
    match smallLetterRuns.find? fun (first, last, step, _) =>
        first ≤ c.toNat && c.toNat ≤ last && (c.toNat - first) % step == 0 with
    | some (_, _, _, shift) => Char.ofNat (c.toNat + shift).toNat
    | none => c

/-- A letter is the next character that is not passed over. -/
def meetsCased (s : List Char) : Bool :=
  match s.dropWhile isPassedOver with
  | [] => false
  | c :: _ => isCased c

/-- Here `before` is the text already read, last character first. -/
def lowercaseFrom (before : List Char) : List Char → List Char
  | [] => []
  | c :: s =>
    let small :=
      if c = 'İ' then ['i', '\u0307']
      else if c = 'Σ' then if meetsCased before && !meetsCased s then ['ς'] else ['σ']
      else [smallLetter c]
    small ++ lowercaseFrom (c :: before) s

/-- The text in small letters. -/
def lowercase (s : List Char) : List Char :=
  lowercaseFrom [] s

end Reckon.Text
