import ScriptCircuit.Bridge.Witness
import ScriptCircuit.Plonk.Check

/-!
# The signature bridge on its own

The circuit with nothing but the regions and tables of the signature bridge.
-/

namespace ScriptCircuit.Bridge

/-- Declares the verification, the byte decomposition and the bridge. -/
def configureAll : Configure Columns := do
  let verification ← Verification.configure
  let range ← ByteRange.configure
  configure verification range

/-- The system of the bridge, with its columns. -/
def system : Columns × System :=
  configureAll.run ∅

/-- The witness of signatures and consumed keys, and the shared cells. -/
def synthesis (sys : System) (c : Columns) (r : Felt) (signatures : List SignedKey) (keys : List ConsumedKey) :
    Synthesis (Witness × Cells) := do
  let regions ← Columns.plan
  Synthesis.allocate sys
  c.load
  let cells ← c.assign sys regions r signatures keys
  return (← Synthesis.take, cells)

end ScriptCircuit.Bridge
