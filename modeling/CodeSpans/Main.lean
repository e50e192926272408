import CodeSpans.CommandLine.Execution

/-!
# The program

Reads the file that the arguments name, prints what the run prints, and tells
its journal on the error stream.
-/

namespace CodeSpans.CommandLine

/-- Why the system could not read a file. -/
def faultOf : IO.Error → FileFault
  | .noFileOrDirectory .. => .notFound
  | .inappropriateType _ code _ => if code = 21 then .isDirectory else .notDirectory
  | .permissionDenied .. => .notPermitted
  | other => .other (toString other)

def readImage (path : String) : IO (Except FileFault View) := do
  try
    return .ok ⟨(← IO.FS.readBinFile path).data⟩
  catch e =>
    return .error (faultOf e)

/-- Prints how a run ended. -/
def tell (level : Journal.Level) (outcome : Outcome) (started : Nat) : IO UInt32 := do
  IO.print outcome.output
  let elapsed := (← IO.monoMsNow) - started
  for event in Journal.upTo level (outcome.journal s!"{elapsed}ms") do
    IO.eprintln event.line
  IO.eprint outcome.errors
  return outcome.exit.toUInt32

def runProgram (arguments : List String) : IO UInt32 := do
  let started ← IO.monoMsNow
  match parse arguments with
  | .error ending => tell .warn ending.outcome started
  | .ok options =>
    let file ← readImage options.path
    tell (if options.verbose then .debug else .warn) (execute options file) started

end CodeSpans.CommandLine

def main (arguments : List String) : IO UInt32 :=
  CodeSpans.CommandLine.runProgram arguments
