import ScriptCircuit.Script.Interpreter

/-!
# Traces

The trace of a script has one row for the state before the first byte, one row for every byte the execution region has
room for, and one row for the state after the last byte. Rows behind the script repeat the final state and read as
no-operations.
-/

namespace ScriptCircuit

/-- The number of rows of a trace. -/
def traceRows : Nat := maxScriptSize + 2

/-- A recorded run. -/
structure Trace where
  script : List UInt8
  /-- the challenge of all combinations -/
  challenge : Felt
  /-- the combination of the script, byte `i` with the power `i` -/
  scriptCombination : Felt
  rows : List Row
deriving DecidableEq

namespace Row

/-- A row behind the script that repeats a state. -/
def padding (s : State) (opcode : UInt8) : Row where
  opcode := opcode
  mode := .opcode
  scriptAcc := 0
  scriptLeft := 0
  dataLeft := 0
  lengthLeft := 0
  lengthWeight := 0
  stack := s.stack
  keyAcc := s.keyAcc
  checks := s.checks
  isPadding := true

/-- The row of the state before the first byte of a script, with its length and its combination. -/
def initial (length : Nat) (acc : Felt) (s : State) : Row where
  opcode := 0
  mode := .opcode
  scriptAcc := acc
  scriptLeft := length
  dataLeft := 0
  lengthLeft := 0
  lengthWeight := 0
  stack := s.stack
  keyAcc := s.keyAcc
  checks := s.checks
  isPadding := false

instance : Inhabited Row := ⟨padding (.initial 0 .empty) 0⟩

end Row

/-- The rows of the bytes of a script, in order, and the state after them, over the combinations of what follows each byte. -/
def State.run (s : State) : List UInt8 → List Felt → Except Error (List Row × State)
  | [], _ => pure ([], s)
  | byte :: rest, accs => do
    let (row, next) ← s.step byte rest.length
    let row := { row with
      scriptAcc := accs.headD 0
      scriptLeft := rest.length + 1 }
    let (rows, final) ← next.run rest accs.tail
    return (row :: rows, final)

namespace Trace

/-- The trace of a script from a stack. -/
def ofStack (script : List UInt8) (challenge : Felt) (stack : Stack) : Except Error Trace := do
  if script.length > maxScriptSize then throw (.scriptTooLong script.length)
  let accs := Combination.suffixes challenge script
  let start := State.initial challenge stack
  let (rows, final) ← start.run script accs.tail
  if final.mode ≠ .opcode then throw .endedInsidePush
  return {
    script
    challenge
    scriptCombination := accs.headD 0
    rows := .initial script.length (accs.headD 0) start :: rows ++
      List.replicate (maxScriptSize - script.length) (.padding final Opcode.nop) ++ [.padding final 0] }

/-- The trace of a script from a list of items, the top one first. -/
def ofItems (script : List UInt8) (challenge : Felt) (items : List Item) : Except Error Trace := do
  ofStack script challenge (← Stack.ofItems challenge items)

/-- The row of the state before the first byte. -/
def firstRow (t : Trace) : Row :=
  t.rows.headD default

/-- The row of the state after the last byte. -/
def lastRow (t : Trace) : Row :=
  t.rows.getLastD default

/-- The public values of a trace: the length of the script, its combination and the challenge. -/
def publicValues (t : Trace) : List Felt :=
  [.ofNat t.script.length, t.scriptCombination, t.challenge]

end Trace

end ScriptCircuit
