import ScriptCircuit.Execution.OpcodeTable
import ScriptCircuit.Plonk.Gadget.IsZero

/-!
# The columns of the execution region

Every row of the region records the state after one script byte: the stack, the counters of what is still to be read and
the accumulators, together with the byte and what the opcode table says of it.
-/

namespace ScriptCircuit.Execution

/-- The columns of the execution region. -/
structure Columns where
  /-- the public values -/
  publicInput : Column
  challenge : Column
  /-- the row of the state before the first byte -/
  isFirst : Column
  /-- the rows of the bytes -/
  isByte : Column
  /-- the row of the state after the last byte -/
  isLast : Column
  opcode : Column
  indicators : Indicators
  /-- the combination of the script bytes that follow -/
  scriptAcc : Column
  scriptLeft : Column
  stack : Vector Column stackDepth
  dataLeft : Column
  lengthLeft : Column
  lengthWeight : Column
  keyAcc : Column
  checks : Column
  scriptLeftInverse : Column
  dataLeftInverse : Column
  lengthLeftInverse : Column
  lengthLastInverse : Column
  table : Vector Column OpcodeTable.width
  topInverse : Column
deriving DecidableEq

namespace Columns

/-- Declares the columns. -/
def declare : Configure Columns := do
  let publicInput ← Configure.column .publicInput
  Configure.linkAll [publicInput]
  let challenge ← Configure.linkedAdvice "randomness"
  let isFirst ← Configure.fixed
  let isByte ← Configure.fixed
  let isLast ← Configure.fixed
  let opcode ← Configure.namedAdvice "opcode"
  let enabled ← Configure.namedAdvice "is_opcode_enabled"
  let classes ← Configure.adviceBlock 7
  let indicators : Indicators := {
    enabled
    pushEmpty := classes[0]
    pushNumber := classes[1]
    pushBytes := classes[2]
    pushData1 := classes[3]
    pushData2 := classes[4]
    pushData4 := classes[5]
    checkSignature := classes[6] }
  let scriptAcc ← Configure.linkedAdvice "script_rlc_acc"
  let scriptLeft ← Configure.linkedAdvice "num_script_bytes_remaining"
  let stack ← Configure.adviceBlock stackDepth
  Configure.labelBlock "stack" stack
  let dataLeft ← Configure.namedAdvice "num_data_bytes_remaining"
  let lengthLeft ← Configure.namedAdvice "num_data_length_bytes_remaining"
  let lengthWeight ← Configure.namedAdvice "num_data_length_acc_constant"
  let keyAcc ← Configure.linkedAdvice "pk_rlc_acc"
  let checks ← Configure.linkedAdvice "num_checksig_opcodes"
  let scriptLeftInverse ← Configure.advice
  let dataLeftInverse ← Configure.advice
  let lengthLeftInverse ← Configure.advice
  let lengthLastInverse ← Configure.advice
  let table ← Configure.fixedBlock OpcodeTable.width
  let topInverse ← Configure.advice
  return { publicInput, challenge, isFirst, isByte, isLast, opcode, indicators, scriptAcc, scriptLeft, stack, dataLeft,
           lengthLeft, lengthWeight, keyAcc, checks, scriptLeftInverse, dataLeftInverse, lengthLeftInverse,
           lengthLastInverse, table, topInverse }

/-- The column of the item on top. -/
def topSlot (c : Columns) : Column :=
  getElem c.stack 0 stackDepth_pos

/-- The test for the end of the script. -/
def scriptRead (c : Columns) : IsZero := ⟨c.scriptLeft.cur, c.scriptLeftInverse⟩

/-- The test for a row outside pushed data. -/
def noData (c : Columns) : IsZero := ⟨c.dataLeft.cur, c.dataLeftInverse⟩

/-- The test for a row outside a length field. -/
def noLength (c : Columns) : IsZero := ⟨c.lengthLeft.cur, c.lengthLeftInverse⟩

/-- The test for the last byte of a length field. -/
def lastLength (c : Columns) : IsZero := ⟨c.lengthLeft.cur - 1, c.lengthLastInverse⟩

/-- The test for a false item on top: zero or the negative zero. -/
def topFalse (c : Columns) : IsZero :=
  ⟨c.topSlot.cur * (c.topSlot.cur - .ofNat 0x80), c.topInverse⟩

end Columns

end ScriptCircuit.Execution
