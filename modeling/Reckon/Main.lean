import Reckon.CommandLine.Outcome

/-!
# The program

Reads the command line and does what it asks for: one calculation, or a dialogue on standard input
and output.
-/

namespace Reckon.CommandLine

def usage : String :=
  "usage: exprcalc [-h] [-e FORMULA] [--vars BINDINGS] [-d FORMULA] [--wrt NAMES]\n" ++
  "                [--angle rad|deg|grad] [-j] [-v]\n" ++
  "                [--log-level DEBUG|INFO|WARNING|ERROR] [--log-file FILE]"

/-- Writes the lines about events to the standard error stream, and to the log file if there is
one. -/
def writeLog (o : Options) (events : List Event) : IO Unit := do
  for line in o.logLines events do
    IO.eprintln line
    match o.logFile with
    | some file =>
      IO.FS.withFile (String.ofList file) .append fun handle => handle.putStrLn line
    | none => pure ()

def exitCode (status : Except Failure Nat) : IO UInt32 := do
  match status with
  | .ok code => return code.toUInt32
  | .error f =>
    IO.eprintln f.message
    return 1

def finish (o : Options) (outcome : Outcome) : IO UInt32 := do
  writeLog o outcome.events
  IO.print outcome.output
  exitCode outcome.status

/-- Answers line by line until the dialogue or the input ends. -/
partial def converseAloud (o : Options) (d : Dialogue) : IO UInt32 := do
  IO.print prompt
  (← IO.getStdout).flush
  let line ← (← IO.getStdin).getLine
  if line.isEmpty then
    IO.print (printed ["", farewell])
    return 0
  let (r, d) := (d.reply line.toList).run
  let (events, d) := d.takeEvents
  writeLog o events
  match r with
  | .ok (.shows lines) =>
    IO.print (printed lines)
    converseAloud o d
  | .ok .leaves => return 0
  | .error f => exitCode (.error f)

end Reckon.CommandLine

open Reckon.CommandLine

def main (args : List String) : IO UInt32 := do
  match Options.read? (args.map (·.toList)) with
  | none =>
    IO.eprintln usage
    return 2
  | some o =>
    if o.help then
      IO.println usage
      return 0
    match o.start with
    | .inl outcome => finish o outcome
    | .inr d =>
      writeLog o [.dialogueStarted]
      IO.println greeting
      converseAloud o d
