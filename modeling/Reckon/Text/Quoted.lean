import Reckon.Text.PrintableTable

/-!
# Quoted text

`quote` writes a text between single quotes, or double quotes when it holds a single quote and no
double one. Characters without a visible form are written as escapes. `quoteList` is the form of a
list of texts. `jsonString` is the form of a text in JSON, with ASCII characters only.
-/

namespace Reckon.Text

def hexDigit (n : Nat) : Char :=
  if n < 10 then Char.ofNat (48 + n) else Char.ofNat (87 + n)

/-- The last `width` hexadecimal digits of `n`. -/
def hex (width n : Nat) : List Char :=
  (List.range width).reverse.map fun k => hexDigit (n / Nat.pow 16 k % 16)

/-- One character inside quotes of the kind `mark`. -/
def escape (mark c : Char) : List Char :=
  if c = mark ∨ c = '\\' then ['\\', c]
  else if c = '\n' then ['\\', 'n']
  else if c = '\r' then ['\\', 'r']
  else if c = '\t' then ['\\', 't']
  else if isPrintable c then [c]
  else if c.toNat < 256 then '\\' :: 'x' :: hex 2 c.toNat
  else if c.toNat < 65536 then '\\' :: 'u' :: hex 4 c.toNat
  else '\\' :: 'U' :: hex 8 c.toNat

def quote (s : List Char) : List Char :=
  let mark := if s.contains '\'' && !s.contains '"' then '"' else '\''
  mark :: s.flatMap (escape mark) ++ [mark]

/-- A list of texts between square brackets. -/
def quoteList (texts : List String) : List Char :=
  '[' :: [',', ' '].intercalate (texts.map fun t => quote t.toList) ++ [']']

/-- One character of a JSON string; beyond the first plane it is a pair of surrogates. -/
def jsonEscape (c : Char) : List Char :=
  if c = '"' ∨ c = '\\' then ['\\', c]
  else if c = '\n' then ['\\', 'n']
  else if c = '\r' then ['\\', 'r']
  else if c = '\t' then ['\\', 't']
  else if c = '\x08' then ['\\', 'b']
  else if c = '\x0c' then ['\\', 'f']
  else if 32 ≤ c.toNat ∧ c.toNat < 127 then [c]
  else if c.toNat < 65536 then '\\' :: 'u' :: hex 4 c.toNat
  else
    let offset := c.toNat - 65536
    '\\' :: 'u' :: hex 4 (55296 + offset / 1024) ++
      '\\' :: 'u' :: hex 4 (56320 + offset % 1024)

def jsonString (s : List Char) : List Char :=
  '"' :: s.flatMap jsonEscape ++ ['"']

end Reckon.Text
