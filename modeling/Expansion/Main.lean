import Expansion.CommandLine

/-!
# The program

Reads the file that is named by the first argument, or the standard input, and prints what a run
shows: answers on the standard output, everything else on the standard error.
-/

namespace Expansion

/-- The lines that report an error: its headline, what it says about each region, and its hint. -/
def Error.report (e : Error) : List String :=
  let about := (e.spans.zip e.labels).map fun (s, label) =>
    "  at " ++ toString s.start ++ ".." ++ toString s.stop ++ ": " ++ label
  let hint := e.help.toList.map ("  help: " ++ ·)
  ("error: " ++ e.message) :: (about ++ hint)

/-- Prints one event. -/
def CommandLine.Event.print : CommandLine.Event → IO Unit
  | .answer line => IO.println line
  | .failure _ e => e.report.forM IO.eprintln
  | .record r => IO.eprintln ("[" ++ r.level.name ++ "] " ++ r.text)
  | .unreadable => IO.eprintln "could not read the source"

/-- The bytes of the source, if they can be read. -/
def readSource (args : List String) : IO (Option ByteArray) := do
  try
    match args with
    | file :: _ => return some (← IO.FS.readBinFile file)
    | [] => return some (← (← IO.getStdin).readBinToEnd)
  catch _ => return none

end Expansion

open Expansion in
def main (args : List String) : IO UInt32 := do
  let env : CommandLine.Environment :=
    { log := ← IO.getEnv "POLY_LOG", maxDepth := ← IO.getEnv "POLY_MAX_DEPTH" }
  let report := CommandLine.run env (← readSource args)
  report.events.forM CommandLine.Event.print
  return if report.succeeded then 0 else 1
