import StackLogic.Batch

/-!
# Command line

Runs the program file that the command line names. Everything but reading and writing is done by
`StackLogic.Batch`.
-/

namespace StackLogic

/-- The contents of a file, if it can be read. -/
def readSource (path : String) : IO (Option String) :=
  try
    let text ← IO.FS.readFile path
    return some text
  catch _ => return none

/-- The contents of the program file, if the command line names one that can be read. -/
def programSource (args : List String) : IO (Option String) :=
  match Batch.Options.ofArguments args with
  | .ok { file := some path, .. } => readSource path
  | _ => return none

/-- Write a result and give its exit code. -/
def deliver (r : Batch.Result) : IO UInt32 := do
  (← IO.getStdout).putStr r.out
  (← IO.getStderr).putStr (r.err.getD (Batch.endLine Batch.usageLine))
  return r.code.toUInt32

/-- Run the command line. -/
def runCommand (args : List String) : IO UInt32 := do
  let source ← programSource args
  deliver (Batch.answer args fun _ => source)

end StackLogic

/-- The program. -/
def main (args : List String) : IO UInt32 := StackLogic.runCommand args
