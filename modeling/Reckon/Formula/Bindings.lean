import Reckon.Binary64.Shortest
import Reckon.Formula.Prepared
import Reckon.Text.Piece

/-!
# Bindings

A name is bound to a number or to a text that is evaluated where the name is used. Only a decimal
is taken as the number that it is; an integer and a double are written first, and their text is
treated as any other. Binding a name again gives it a new value at its old place. A person writes
bindings as `name=text` with semicolons between them.
-/

namespace Reckon

inductive Bound where
  | number (value : Decimal)
  | integer (value : Int)
  | double (value : Binary64)
  | text (formula : List Char)

namespace Bound

/-- The number that is used, or the text that is read where the name is used. -/
def content : Bound → Except Failure (Decimal ⊕ List Char)
  | number a => .ok (.inl a)
  | integer n =>
    if maxIntegerDigits < Decimal.digitCount n.natAbs then .error .integerTooLong
    else .ok (.inr (Decimal.signText (n < 0) ++ Decimal.digits n.natAbs))
  | double x => .ok (.inr x.text)
  | text s => .ok (.inr s)

@[simp] theorem content_number (a : Decimal) : (number a).content = .ok (.inl a) :=
  rfl

@[simp] theorem content_text (s : List Char) : (text s).content = .ok (.inr s) :=
  rfl

end Bound

abbrev Bindings := List (String × Bound)

namespace Bindings

def set (name : String) (bound : Bound) : Bindings → Bindings
  | [] => [(name, bound)]
  | (x, b) :: rest => if x = name then (x, bound) :: rest else (x, b) :: set name bound rest

def lookup? (name : String) (bindings : Bindings) : Option Bound :=
  (bindings.find? fun (x, _) => x = name).map (·.2)

/-- Binds everything that `new` binds, in its order. -/
def update (bindings new : Bindings) : Bindings :=
  new.foldl (fun bindings (x, b) => bindings.set x b) bindings

/-- The bindings with their names as formulas write them. -/
def normalized (bindings : Bindings) : Bindings :=
  update [] (bindings.map fun (x, b) => (String.ofList (Formula.normalize x.toList), b))

/-- Reads one `name=text`. -/
def readPair (pair : List Char) : Except Failure (String × Bound) :=
  match Text.cut? ['='] pair with
  | some (c :: name, text) => .ok (String.ofList (c :: name), .text text)
  | _ => .error (.malformed (.notBinding (String.ofList pair)))

/-- Reads bindings with semicolons between them. -/
def read (s : List Char) : Except Failure Bindings := do
  let pairs := (Text.pieces ';' (Formula.normalize s)).filter fun pair => !pair.isEmpty
  return update [] (← pairs.mapM readPair)

end Bindings

end Reckon
