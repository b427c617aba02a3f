import NormalGrammar.CommandLine.Program

/-!
# The program

Reads the file, supplies random words, and prints the report of the run.
-/

namespace NormalGrammar

/-- Random words. -/
def randomWords (count : Nat) : IO (List UInt32) :=
  (List.range count).mapM fun _ => return (← IO.rand 0 (UInt32.size - 1)).toUInt32

/-- Runs with a script of random words, which is made longer until it suffices. -/
partial def performWith (options : Options) (contents? : Option ByteArray)
    (script : List UInt32) : IO Report := do
  let report := CommandLine.perform options contents? script
  if report.drawn ≤ script.length then
    return report
  else
    performWith options contents? (script ++ (← randomWords report.drawn))

/-- The contents of a file, if it can be read. -/
def contentsOf? (path : String) : IO (Option ByteArray) := do
  try return some (← IO.FS.readBinFile path)
  catch _ => return none

/-- The report of a run with the given arguments. -/
def report (arguments : List String) : IO Report := do
  match CommandLine.readArguments arguments with
  | .error stop => return CommandLine.stopped stop
  | .ok options => performWith options (← contentsOf? options.file) []

end NormalGrammar

/-- Runs the program. -/
def main (arguments : List String) : IO UInt32 := do
  let report ← NormalGrammar.report arguments
  IO.print report.output
  IO.eprint report.errors
  return report.code.toUInt32
