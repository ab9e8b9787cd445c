/-!
# Blank characters

`isBlank` is the class of characters that separate words: the ASCII blanks with the four
information separators, and the spaces and line ends of Unicode. `squeeze` deletes them, `trim`
deletes them at both ends, `words` cuts at their runs.
-/

namespace Reckon.Text

def isBlank (c : Char) : Bool :=
  let n := c.toNat
  n = 32 || (9 ≤ n && n ≤ 13) || (28 ≤ n && n ≤ 31) || n = 133 || n = 160 || n = 5760 ||
    (8192 ≤ n && n ≤ 8202) || n = 8232 || n = 8233 || n = 8239 || n = 8287 || n = 12288

/-- The text without its blanks. -/
def squeeze (s : List Char) : List Char :=
  s.filter (!isBlank ·)

/-- The text without the blanks at its two ends. -/
def trim (s : List Char) : List Char :=
  ((s.dropWhile isBlank).reverse.dropWhile isBlank).reverse

/-- The maximal runs of characters that are not blank, in order. `word` is the run being read,
last character first. -/
def wordsFrom (word : List Char) : List Char → List (List Char)
  | [] => if word.isEmpty then [] else [word.reverse]
  | c :: s =>
    if isBlank c then
      if word.isEmpty then wordsFrom [] s else word.reverse :: wordsFrom [] s
    else wordsFrom (c :: word) s

def words (s : List Char) : List (List Char) :=
  wordsFrom [] s

@[simp] theorem squeeze_squeeze (s : List Char) : squeeze (squeeze s) = squeeze s := by
  simp [squeeze]

theorem isBlank_of_mem_squeeze {s : List Char} {c : Char} (h : c ∈ squeeze s) :
    isBlank c = false := by
  simpa using (List.mem_filter.mp h).2

end Reckon.Text
