import ScriptCircuit.Bridge.Circuit
import ScriptCircuit.Execution.Circuit
import ScriptCircuit.Script.Keys

/-!
# The circuit

The execution region and the signature bridge, linked where they must agree: on the challenge, on the number of checks of
valid signatures and on the fold of their keys. The public values are the length of the script, its combination and the
challenge.
-/

namespace ScriptCircuit

/-- What a prover knows of a spend. -/
structure Spend where
  script : List UInt8
  challenge : Felt
  /-- the stack before the first byte, the top item first -/
  items : List Item
  /-- one for every check of a valid signature, in script order -/
  signatures : List Bridge.SignedKey
deriving DecidableEq

namespace Circuit

/-- The columns of the circuit. -/
structure Columns where
  execution : Execution.Columns
  bridge : Bridge.Columns
deriving DecidableEq

/-- Declares the circuit. -/
def configure : Configure Columns := do
  let execution ← Execution.configure
  let bridge ← Bridge.configureAll
  return { execution, bridge }

/-- The system of the circuit, with its columns. -/
def system : Columns × System :=
  configure.run ∅

/-- The work on the layouter for a trace, signatures and consumed keys. -/
def synthesis (sys : System) (c : Columns) (trace : Trace) (signatures : List Bridge.SignedKey)
    (keys : List ConsumedKey) : Synthesis Witness := do
  let index ← Synthesis.planRegion "execution" traceRows
  Synthesis.planTable "opcode table" OpcodeTable.size
  let regions ← Bridge.Columns.plan
  Synthesis.allocate sys
  Synthesis.fillTable OpcodeTable.name c.execution.tableCells
  c.bridge.load
  let shared ← c.bridge.assign sys regions trace.challenge signatures keys
  let region ← Synthesis.region index
  let (cells, region) ← Synthesis.fill region (c.execution.assign trace)
  Synthesis.commit sys region
  Synthesis.constrainEqual sys cells.keyAcc.cell shared.keyAcc.cell
  Synthesis.constrainEqual sys cells.checks.cell shared.checks.cell
  Synthesis.constrainEqual sys cells.challenge.cell shared.challenge.cell
  c.execution.exposePublic sys cells
  Synthesis.take

end Circuit

namespace Spend

/-- The witness of a spend. -/
def witness (s : Spend) (sys : System) (c : Circuit.Columns) : Except Error Witness := do
  if s.signatures.length > maxSignatures then throw (.tooManySignatures maxSignatures s.signatures.length)
  let trace ← Trace.ofItems s.script s.challenge s.items
  let keys ← Keys.collect s.script s.items
  let (w, _) ← (Circuit.synthesis sys c trace s.signatures keys).run ∅
  return w

/-- The public values of a spend: the length of the script, its combination and the challenge. -/
def publicValues (s : Spend) : List (List Felt) :=
  [[.ofNat s.script.length, Combination.hornerReversed s.challenge s.script, s.challenge]]

/-- The failures of the witness of a spend. -/
def failures (s : Spend) : Except Error (List Failure) := do
  let (c, sys) := Circuit.system
  let w ← s.witness sys c
  let claim ← Claim.make sys w s.publicValues
  claim.failures

end Spend

end ScriptCircuit
