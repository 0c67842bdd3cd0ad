import ScriptCircuit.CommandLine

/-!
# The program

Reads the input file, runs the command line, and does what its outcome says.
-/

namespace ScriptCircuit.CommandLine

/-- The text of a file, if it can be read. -/
def readText (path : String) : IO (Option String) := do
  match ← (IO.FS.readFile path).toBaseIO with
  | .ok text => return some text
  | .error _ => return none

/-- Opens a file for writing, if this is possible. -/
def openOutput (path : String) : IO (Option IO.FS.Handle) := do
  match ← (IO.FS.Handle.mk path .write).toBaseIO with
  | .ok handle => return some handle
  | .error _ => return none

end ScriptCircuit.CommandLine

open ScriptCircuit in
/-- Runs the program on its arguments. -/
def main (args : List String) : IO UInt32 := do
  let input ← CommandLine.readText (args.headD "")
  let draft := CommandLine.draft (fun _ => input) args
  let handle ←
    match draft.path? with
    | none => pure none
    | some path => CommandLine.openOutput path
  let outcome := draft.finish handle.isSome
  IO.print outcome.stdout
  IO.eprint outcome.stderr
  match outcome.written, handle with
  | some (_, text), some handle => handle.putStr text
  | _, _ => pure ()
  return UInt32.ofNat outcome.code
