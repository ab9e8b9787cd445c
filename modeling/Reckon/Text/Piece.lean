/-!
# Pieces of texts

A text is cut at every separator (`pieces`) or at the first place where a mark stands (`cut?`).
-/

namespace Reckon.Text

/-- What stands between the separators. There is always one piece more than there are separators. -/
def pieces (separator : Char) : List Char → List (List Char)
  | [] => [[]]
  | c :: s =>
    if c = separator then [] :: pieces separator s
    else
      match pieces separator s with
      | [] => [[c]]
      | piece :: rest => (c :: piece) :: rest

/-- What stands in front of the first place where the mark stands, and behind it. -/
def cut? (mark : List Char) : List Char → Option (List Char × List Char)
  | [] => none
  | c :: s =>
    if mark.isPrefixOf (c :: s) then some ([], (c :: s).drop mark.length)
    else (cut? mark s).map fun (before, behind) => (c :: before, behind)

end Reckon.Text
