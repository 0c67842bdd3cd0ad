import ScriptCircuit.Execution.Witness
import ScriptCircuit.Plonk.Check

/-!
# The execution region on its own

The circuit with nothing but the execution region and the opcode table. Other regions may be planned in front of it, so
the region can start at any row.
-/

namespace ScriptCircuit.Execution

/-- The system of the execution region, with its columns. -/
def system : Columns × System :=
  configure.run ∅

/-- The witness of a trace, with the region behind `before` and of a given height, and the shared cells. -/
def synthesis (sys : System) (c : Columns) (trace : Trace) (before : List (String × Nat)) (height : Nat) :
    Synthesis (Witness × Cells) := do
  before.forM fun (name, rows) => discard (Synthesis.planRegion name rows)
  let index ← Synthesis.planRegion "execution" height
  Synthesis.planTable "opcode table" OpcodeTable.size
  Synthesis.allocate sys
  Synthesis.fillTable OpcodeTable.name c.tableCells
  let region ← Synthesis.region index
  let (cells, region) ← Synthesis.fill region (c.assign trace)
  Synthesis.commit sys region
  c.exposePublic sys cells
  return (← Synthesis.take, cells)

end ScriptCircuit.Execution
