import ScriptCircuit.Execution.Gates
import ScriptCircuit.Script.Trace

/-!
# The witness of the execution region

A trace is written into the region row by row, with the inverses of the zero tests and the indicators of every byte. The
cells that other regions or the public values must agree with are handed out.
-/

namespace ScriptCircuit.Execution

/-- The cells shared with the public values and the signature region. -/
structure Cells where
  scriptLength : AssignedCell
  scriptCombination : AssignedCell
  challenge : AssignedCell
  keyAcc : AssignedCell
  checks : AssignedCell
deriving DecidableEq

namespace Cells

/-- The cells, in order. -/
def toList (c : Cells) : List AssignedCell :=
  [c.scriptLength, c.scriptCombination, c.challenge, c.keyAcc, c.checks]

end Cells

/-- What a row of a trace puts into the state columns. -/
def Columns.stateValues (c : Columns) (challenge : Felt) (row : Row) : List (Column × Felt) :=
  [(c.challenge, challenge), (c.opcode, .ofByte row.opcode), (c.scriptAcc, row.scriptAcc),
    (c.scriptLeft, .ofNat row.scriptLeft)] ++
  c.stack.toList.zip row.stack.toList ++
  [(c.dataLeft, .ofNat row.dataLeft), (c.lengthLeft, .ofNat row.lengthLeft), (c.lengthWeight, .ofNat row.lengthWeight),
    (c.keyAcc, row.keyAcc), (c.checks, .ofNat row.checks)]

/-- What a row of a trace puts under the zero tests. -/
def Columns.tested (c : Columns) (row : Row) : List (IsZero × Felt) :=
  [(c.scriptRead, .ofNat row.scriptLeft), (c.noData, .ofNat row.dataLeft), (c.noLength, .ofNat row.lengthLeft),
    (c.lastLength, .ofNat row.lengthLeft - 1), (c.topFalse, row.stack.top * (row.stack.top - negativeZero))]

/-- Writes a row of a trace at an offset. -/
def Columns.assignRow (c : Columns) (challenge : Felt) (offset : Nat) (row : Row) : Fill Unit := do
  (c.stateValues challenge row).forM fun (column, x) => discard (Fill.assignAdvice column offset x)
  (c.tested row).forM fun (test, x) => discard (test.assign offset x)

/-- Writes the row of a script byte, or of padding, at an offset. -/
def Columns.assignByteRow (c : Columns) (challenge : Felt) (offset : Nat) (row : Row) : Fill Unit := do
  Fill.enable c.isByte offset
  c.assignRow challenge offset row
  (c.indicators.toList.zip (OpcodeTable.indicators row.opcode)).forM fun (column, x) =>
    discard (Fill.assignAdvice column offset (.ofNat x))

/-- The shared cells of a trace in a region that starts at a row. -/
def Columns.cells (c : Columns) (start : Nat) (trace : Trace) : Cells :=
  let first := trace.firstRow
  let last := trace.lastRow
  let lastOffset := (start + (traceRows - 1)) % UInt64.size
  { scriptLength := ⟨⟨c.scriptLeft, start⟩, .ofNat first.scriptLeft⟩
    scriptCombination := ⟨⟨c.scriptAcc, start⟩, first.scriptAcc⟩
    challenge := ⟨⟨c.challenge, start⟩, trace.challenge⟩
    keyAcc := ⟨⟨c.keyAcc, lastOffset⟩, last.keyAcc⟩
    checks := ⟨⟨c.checks, lastOffset⟩, .ofNat last.checks⟩ }

/-- Writes a trace into a region; both must have the full number of rows. -/
def Columns.assign (c : Columns) (trace : Trace) : Fill Cells := do
  Fill.require fun r =>
    if r.height = traceRows ∧ trace.rows.length = traceRows then pure ()
    else throw (.executionHeight traceRows r.height trace.rows.length)
  Fill.enable c.isFirst 0
  c.assignRow trace.challenge 0 trace.firstRow
  (trace.rows.drop 1).dropLast.zipIdx.forM fun (row, i) => c.assignByteRow trace.challenge (i + 1) row
  Fill.enable c.isLast (traceRows - 1)
  c.assignRow trace.challenge (traceRows - 1) trace.lastRow
  fun s => (pure (c.cells s.region.start trace), s)

/-- The cells of the opcode table. -/
def Columns.tableCells (c : Columns) : List (Column × Nat × Felt) :=
  OpcodeTable.cells c.table

/-- Binds the length of the script, its combination and the challenge to the public values. -/
def Columns.exposePublic (c : Columns) (sys : System) (cells : Cells) : Synthesis Unit := do
  Synthesis.constrainInstance sys cells.scriptLength.cell c.publicInput 0
  Synthesis.constrainInstance sys cells.scriptCombination.cell c.publicInput 1
  Synthesis.constrainInstance sys cells.challenge.cell c.publicInput 2

end ScriptCircuit.Execution
