import ScriptCircuit.Document
import ScriptCircuit.Json.Parser
import ScriptCircuit.Json.Printer

/-!
# The command line

The program reads the document of a spend, traces its script, builds and checks the witness of the circuit, and writes the
trace with the outcome of the check. What it reads from the world is passed in, what it does to the world is its outcome.
-/

namespace ScriptCircuit.CommandLine

/-- The files at hand. -/
structure Files where
  /-- the text of a file that can be read -/
  read : String → Option String
  /-- a file can be written at this path -/
  writable : String → Bool

/-- What a run of the program does. -/
structure Outcome where
  code : Nat
  stdout : String
  stderr : String
  /-- the file that is written: its path and its text -/
  written : Option (String × String)
deriving DecidableEq

/-- The text for a call without arguments. -/
def usage : String :=
  "Usage: bitcoin_vm_trace <input.json> [output.json]\n" ++
  "Example: bitcoin_vm_trace p2pk.json /tmp/p2pk_trace.json\n"

/-- The end of a run by a failure, behind what was printed before it. -/
def failed (stdout : String) (e : Error) : Outcome where
  code := 2
  stdout := stdout
  stderr := s!"Error: {e.message}\n"
  written := none

/-- The spend in a file. -/
def readSpend (read : String → Option String) (path : String) : Except Error Spend := do
  match read path with
  | none => throw (.cannotOpen path)
  | some text => Document.spend (← Json.parse text)

/-- Traces a spend and checks its witness. -/
def examine (spend : Spend) : Except Error (Trace × List Failure) := do
  let trace ← Trace.ofItems spend.script spend.challenge spend.items
  return (trace, ← spend.failures)

/-- The document of a trace and the failures of its witness. -/
def report (trace : Trace) (failures : List Failure) : Json :=
  .ofFields [
    ("trace", Document.trace trace),
    ("verification", .ofFields [
      ("satisfied", .bool failures.isEmpty),
      ("failures", Document.failures failures)])]

/-- A run up to the writing of its document. -/
inductive Draft where
  /-- the run ended without a document -/
  | ended (outcome : Outcome)
  /-- a document is left to be written to the file at `path`, or to the standard output if `path` is empty -/
  | document (path summary text : String) (code : Nat)
deriving DecidableEq

namespace Draft

/-- The file that the document is written to, if it goes to a file. -/
def path? : Draft → Option String
  | ended _ => none
  | document path .. => if path.isEmpty then none else some path

/-- The end of the run, when it is known whether the file can be written. -/
def finish (writable : Bool) : Draft → Outcome
  | ended outcome => outcome
  | document path summary text code =>
    if path.isEmpty then { code, stdout := summary ++ text, stderr := "", written := none }
    else if writable then
      { code
        stdout := summary ++ s!"Trace data dumped to: {path}\n"
        stderr := ""
        written := some (path, text) }
    else failed summary (.cannotWrite path)

end Draft

/-- The document of an input path for an output path, which may be empty. -/
def draftPaths (read : String → Option String) (input output : String) : Draft :=
  match readSpend read input with
  | .error e => .ended (failed "" e)
  | .ok spend =>
    let opening := s!"Tracing {spend.script.length} script bytes, {spend.signatures.length} signatures\n"
    match examine spend with
    | .error e => .ended (failed opening e)
    | .ok (trace, failures) =>
      let verdict := if failures.isEmpty then "satisfied" else "NOT satisfied"
      let summary := opening ++
        s!"Checksig opcodes with valid signatures: {trace.lastRow.checks}\n" ++
        s!"Verification: {verdict}\n"
      .document output summary ((report trace failures).indented 0 ++ "\n") (if failures.isEmpty then 0 else 3)

/-- The document for a list of arguments: an input path and, unless the document goes to the standard output, an output
path. -/
def draft (read : String → Option String) : List String → Draft
  | [] => .ended { code := 1, stdout := "", stderr := usage, written := none }
  | [input] => draftPaths read input ""
  | input :: output :: _ => draftPaths read input output

/-- The program on its arguments. -/
def run (files : Files) (args : List String) : Outcome :=
  let d := draft files.read args
  d.finish (d.path?.all files.writable)

end ScriptCircuit.CommandLine
