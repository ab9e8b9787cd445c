import Reckon.Numeric.Angle
import Reckon.Text.Digit

/-!
# Options

The words of a command line. A switch stands alone, a setting takes a value: the rest of its own
word or the next word. A short option is a dash and a letter, and several may share one dash; the
name of a long option may be shortened as long as one option fits. Nothing may be left over.
-/

namespace Reckon.CommandLine

inductive Switch where
  | help | json | version
  deriving DecidableEq

inductive Setting where
  | evaluate | bindings | differentiate | targets | angle | logLevel | logFile
  deriving DecidableEq

inductive Flag where
  | switch (s : Switch)
  | setting (s : Setting)
  deriving DecidableEq

namespace Flag

/-- The letters of the short options. -/
def ofLetter? : Char → Option Flag
  | 'h' => some (switch .help)
  | 'e' => some (setting .evaluate)
  | 'd' => some (setting .differentiate)
  | 'j' => some (switch .json)
  | 'v' => some (switch .version)
  | _ => none

/-- The names of the long options. -/
def named : List (String × Flag) := [
  ("help", switch .help), ("eval", setting .evaluate), ("vars", setting .bindings),
  ("diff", setting .differentiate), ("wrt", setting .targets), ("angle", setting .angle),
  ("json", switch .json), ("version", switch .version), ("log-level", setting .logLevel),
  ("log-file", setting .logFile)]

/-- The long options whose names begin with a text; only one if the text is a whole name. -/
def matching (name : List Char) : List Flag :=
  match named.find? fun (x, _) => x.toList = name with
  | some (_, flag) => [flag]
  | none => (named.filter fun (x, _) => name.isPrefixOf x.toList).map (·.2)

end Flag

/-! ### Words -/

/-- What a word is, taken by itself. -/
inductive Word where
  /-- An option with the rest of its word. -/
  | option (long : Bool) (flag : Flag) (rest : List Char)
  | operand (text : List Char)
  | unknown
  deriving DecidableEq

/-- Whether a word that begins with a dash is a negative number, a point among its
digits allowed. -/
def isNegativeNumber (s : List Char) : Bool :=
  match s with
  | '-' :: s =>
    let s := if s.getLast? = some '\n' then s.dropLast else s
    match s.dropWhile Text.isDigit with
    | [] => !s.isEmpty
    | '.' :: fraction => !fraction.isEmpty && fraction.all Text.isDigit
    | _ => false
  | _ => false

namespace Word

/-- A word that is no option: it may still be a value if it has a blank or is a negative number. -/
def plain (s : List Char) : Word :=
  if isNegativeNumber s || s.contains ' ' then operand s else unknown

/-- What a word is; none if several long options fit it. -/
def read? (s : List Char) : Option Word :=
  match s with
  | '-' :: '-' :: s =>
    let name := s.takeWhile (· ≠ '=')
    match Flag.matching name with
    | [] => some (plain ('-' :: '-' :: s))
    | [flag] => some (option true flag (s.drop name.length))
    | _ => none
  | '-' :: c :: rest =>
    match Flag.ofLetter? c with
    | some flag => some (option false flag rest)
    | none => some (plain ('-' :: c :: rest))
  | s => some (operand s)

end Word

/-! ### Options that share a word -/

/-- What the switches of a word are followed by. -/
inductive WordEnd where
  | nothing
  | stray
  | missing (s : Setting)
  | value (s : Setting) (value : List Char)

/-- The switches in a word that begins with an option, and what follows them; none if a switch is
given a value. -/
def readCluster (long : Bool) : Flag → (rest : List Char) → Option (List Switch × WordEnd)
  | .setting s, [] => some ([], .missing s)
  | .setting s, '=' :: v => some ([], .value s v)
  | .setting s, v => some ([], .value s v)
  | .switch s, [] => some ([s], .nothing)
  | .switch s, c :: rest =>
    if long || c = '=' || c = '-' then none
    else
      match Flag.ofLetter? c with
      | none => some ([s], .stray)
      | some flag => (readCluster long flag rest).map fun (l, e) => (s :: l, e)

/-! ### All words -/

/-- How much the program tells about its work. -/
inductive LogLevel where
  | debug | info | warning | error
  deriving DecidableEq

def LogLevel.ofName? : String → Option LogLevel
  | "DEBUG" => some debug
  | "INFO" => some info
  | "WARNING" => some warning
  | "ERROR" => some error
  | _ => none

structure Options where
  help : Bool := false
  json : Bool := false
  version : Bool := false
  formula : Option (List Char) := none
  bindings : List Char := []
  differentiate : Option (List Char) := none
  targets : List Char := []
  unit : AngleUnit := .rad
  logLevel : LogLevel := .warning
  logFile : Option (List Char) := none

namespace Options

def turnOn (o : Options) : Switch → Options
  | .help => { o with help := true }
  | .json => { o with json := true }
  | .version => { o with version := true }

/-- Gives a setting its value; none if the setting has no such value. -/
def set? (o : Options) (s : Setting) (value : List Char) : Option Options :=
  match s with
  | .evaluate => some { o with formula := some value }
  | .bindings => some { o with bindings := value }
  | .differentiate => some { o with differentiate := some value }
  | .targets => some { o with targets := value }
  | .angle => (AngleUnit.ofName? (String.ofList value)).map fun u => { o with unit := u }
  | .logLevel => (LogLevel.ofName? (String.ofList value)).map fun l => { o with logLevel := l }
  | .logFile => some { o with logFile := some value }

/-- Follows the words from left to right. A call for help ends the reading, a word that no option
takes makes the whole line wrong. -/
def readWords (o : Options) (stray : Bool) : List Word → Option Options
  | [] => if stray then none else some o
  | .operand _ :: words => readWords o true words
  | .unknown :: words => readWords o true words
  | .option long flag rest :: words =>
    match readCluster long flag rest with
    | none => none
    | some (switches, wordEnd) =>
      let o := switches.foldl turnOn o
      match wordEnd, words with
      | .nothing, words => if o.help then some o else readWords o stray words
      | .stray, words => if o.help then some o else readWords o true words
      | .value s v, words =>
        if o.help then some o
        else
          match o.set? s v with
          | some o => readWords o stray words
          | none => none
      | .missing s, .operand v :: words =>
        if o.help then some o
        else
          match o.set? s v with
          | some o => readWords o stray words
          | none => none
      | .missing _, _ => none

/-- The options on a command line; none if it is wrong. Two dashes alone end the options, and
nothing may stand behind them. -/
def read? (args : List (List Char)) : Option Options := do
  let words ← (args.takeWhile (· ≠ ['-', '-'])).mapM Word.read?
  readWords {} (args.contains ['-', '-']) words

end Options

end Reckon.CommandLine
