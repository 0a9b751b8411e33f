import SmtScript.CommandLine
import SmtScript.Engine

/-!
The program: does what the command line asks for and prints what comes of it.
-/

open SmtScript

/-- The text of a file, if there is a file that can be read. -/
def readFile (path : String) : IO (Option String) := do
  try
    return some (← IO.FS.readFile path)
  catch _ =>
    return none

/-- Opens the log file; gives whether this succeeds. -/
def openLog (path : String) : IO Bool := do
  try
    IO.FS.writeFile path ""
    return true
  catch _ =>
    return false

/-- Runs the script of an invocation. -/
def runScript (invocation : CommandLine.Invocation) : IO CommandLine.Outcome := do
  match ← readFile invocation.script with
  | none => return CommandLine.usageError
  | some text =>
    match invocation.logFile with
    | none => return CommandLine.run Engine invocation text
    | some logFile =>
      if ← openLog logFile then
        return CommandLine.run Engine invocation ((← readFile invocation.script).getD "")
      else
        return CommandLine.logFailure

def main (args : List String) : IO UInt32 := do
  let outcome ← match CommandLine.parse args with
    | .wrong => pure CommandLine.usageError
    | .help => pure CommandLine.helpGiven
    | .run invocation => runScript invocation
  IO.print outcome.output
  return outcome.exitCode.toUInt32
