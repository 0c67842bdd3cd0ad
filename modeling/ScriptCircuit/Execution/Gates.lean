import ScriptCircuit.Execution.Columns

/-!
# The gates of the execution region

Every class of opcodes has its own gate, multiplied by the indicator of the class so that it vanishes on all other rows.
A row is an opcode row, a data row or a length row, as the counters say, or it lies behind the script and is frozen.
-/

namespace ScriptCircuit.Execution.Columns

/-- The rows whose byte belongs to the script. -/
def active (c : Columns) : Expr :=
  1 - c.scriptRead.indicator

/-- The rows whose byte is an opcode. -/
def opcodeRow (c : Columns) : Expr :=
  c.isByte.cur * c.active * c.noData.indicator * c.noLength.indicator

/-- The rows at and behind the end of the script. -/
def terminal (c : Columns) : Expr :=
  c.isByte.cur * c.scriptRead.indicator + c.isLast.cur

/-- No slot from `start` on changes. -/
def stackUnchanged (c : Columns) (cond : Expr) (start : Nat) : List Expr :=
  (c.stack.toList.drop start).map fun slot => cond * (slot.cur - slot.prev)

/-- Every slot below the top holds what the slot above it held. -/
def stackPushed (c : Columns) (cond : Expr) : List Expr :=
  (c.stack.toList.drop 1).zipWith (fun slot above => cond * (slot.cur - above.prev)) c.stack.toList

/-- Every slot from the second on holds what the slot below it held. -/
def stackPopped (c : Columns) (cond : Expr) : List Expr :=
  (c.stack.toList.drop 1).zipWith (fun slot below => cond * (slot.cur - below.prev)) (c.stack.toList.drop 2)

/-- The next row is neither a data row nor a length row. -/
def opcodeNext (c : Columns) (cond : Expr) : List Expr :=
  [cond * c.dataLeft.next, cond * c.lengthLeft.next]

/-- The item on top. -/
def top (c : Columns) : Expr :=
  c.topSlot.cur

/-- The item on top in the row before: the key of a signature check. -/
def topBefore (c : Columns) : Expr :=
  c.topSlot.prev

/-- The item below the top in the row before: the flag of a signature check. -/
def flag (c : Columns) : Expr :=
  (getElem c.stack 1 one_lt_stackDepth).prev

/-- The state before the first byte has no counts, and the counter of script bytes starts there. -/
def firstRow (c : Columns) : Gate where
  name := "first row"
  polys :=
    [c.isFirst.cur * c.dataLeft.cur,
      c.isFirst.cur * c.lengthLeft.cur,
      c.isFirst.cur * c.dataLeft.next,
      c.isFirst.cur * c.lengthLeft.next,
      c.isFirst.cur * c.keyAcc.cur,
      c.isFirst.cur * c.checks.cur,
      c.isFirst.cur * (c.scriptLeft.next - c.scriptLeft.cur)]

/-- All rows hold the same challenge. -/
def sameChallenge (c : Columns) : Gate where
  name := "randomness is the same in all rows"
  polys :=
    [c.isByte.cur * (c.challenge.cur - c.challenge.prev),
      c.isLast.cur * (c.challenge.cur - c.challenge.prev)]

/-- Every byte leaves the combination of the script, and both the combination and the counter end in zero. -/
def scriptByte (c : Columns) : Gate where
  name := "pop byte out of script_rlc_acc"
  polys :=
    [c.isByte.cur * c.active * (c.opcode.cur + c.challenge.cur * c.scriptAcc.cur - c.scriptAcc.prev),
      c.isByte.cur * c.active * (c.scriptLeft.next + 1 - c.scriptLeft.cur),
      c.isByte.cur * c.scriptRead.indicator * c.scriptAcc.cur,
      c.isByte.cur * c.scriptRead.indicator * c.scriptLeft.next]

/-- Behind the script nothing changes. -/
def frozen (c : Columns) : Gate :=
  let cond := c.isByte.cur * c.scriptRead.indicator
  { name := "state frozen once script is read"
    polys := c.stackUnchanged cond 0 ++
      [cond * (c.opcode.cur - .ofNat 0x61),
        cond * c.dataLeft.cur,
        cond * c.lengthLeft.cur,
        cond * (c.keyAcc.cur - c.keyAcc.prev),
        cond * (c.checks.cur - c.checks.prev)] }

/-- Every opcode is enabled. -/
def enabledOpcode (c : Columns) : Gate where
  name := "only enabled opcodes"
  polys := [c.opcodeRow * (1 - c.indicators.enabled.cur)]

/-- A small number is pushed. -/
def pushNumber (c : Columns) : Gate :=
  let cond := c.opcodeRow * c.indicators.pushNumber.cur
  { name := "OP_1 to OP_16"
    polys := [cond * (c.top - (c.opcode.cur - .ofNat 0x50))] ++ c.stackPushed cond ++ c.opcodeNext cond }

/-- The empty byte string is pushed. -/
def pushEmpty (c : Columns) : Gate :=
  let cond := c.opcodeRow * c.indicators.pushEmpty.cur
  { name := "OP_0"
    polys := [cond * (c.top - .ofNat 0x80)] ++ c.stackPushed cond ++ c.opcodeNext cond }

/-- An enabled opcode without a class, the only one being the no-operation. -/
def isNop (c : Columns) : Expr :=
  c.indicators.enabled.cur - Expr.sum [c.indicators.pushEmpty.cur, c.indicators.pushNumber.cur, c.indicators.pushBytes.cur,
    c.indicators.pushData1.cur, c.indicators.pushData2.cur, c.indicators.pushData4.cur, c.indicators.checkSignature.cur]

/-- The no-operation leaves the stack. -/
def nop (c : Columns) : Gate :=
  let cond := c.opcodeRow * c.isNop
  { name := "OP_NOP"
    polys := c.stackUnchanged cond 0 ++ c.opcodeNext cond }

/-- A direct push opens as many data rows as the opcode says, over a zero. -/
def pushBytes (c : Columns) : Gate :=
  let cond := c.opcodeRow * c.indicators.pushBytes.cur
  { name := "PUSH1 to PUSH75"
    polys :=
      [cond * c.top, cond * (c.dataLeft.next - c.opcode.cur), cond * c.lengthLeft.next] ++ c.stackPushed cond }

/-- A push with a length field opens its length rows, over a zero; the first one weighs one. -/
def pushData (c : Columns) (indicator : Column) (width : Nat) : Gate :=
  let cond := c.opcodeRow * indicator.cur
  { name := s!"PUSHDATA{width}"
    polys :=
      [cond * c.top, cond * (c.lengthLeft.next - .ofNat width), cond * (c.lengthWeight.next - 1)] ++
        c.stackPushed cond }

/-- A data byte joins the item on top. -/
def dataByte (c : Columns) : Gate :=
  let cond := c.isByte.cur * c.active * (1 - c.noData.indicator) * c.noLength.indicator
  { name := "accumulate data byte in stack top"
    polys :=
      [cond * (c.top - (c.opcode.cur + c.challenge.cur * c.topBefore)),
        cond * (c.dataLeft.next + 1 - c.dataLeft.cur),
        cond * c.lengthLeft.next] ++ c.stackUnchanged cond 1 }

/-- A length byte joins the length, little-endian; the last one opens the data rows, and their number is not zero. -/
def lengthByte (c : Columns) : Gate :=
  let cond := c.isByte.cur * c.active * (1 - c.noLength.indicator)
  { name := "accumulate data length into num_data_bytes_remaining"
    polys :=
      [cond * (c.dataLeft.cur - (c.opcode.cur * c.lengthWeight.cur + c.dataLeft.prev)),
        cond * (c.lengthLeft.next + 1 - c.lengthLeft.cur),
        cond * (1 - c.lastLength.indicator) * (c.lengthWeight.next - .ofNat 256 * c.lengthWeight.cur),
        cond * c.lastLength.indicator * (c.dataLeft.next - c.dataLeft.cur),
        cond * c.lastLength.indicator * c.noData.indicator] ++ c.stackUnchanged cond 0 }

/-- A signature check replaces two items by the flag of the lower one and folds the key of a valid signature. -/
def checkSignature (c : Columns) : Gate :=
  let cond := c.opcodeRow * c.indicators.checkSignature.cur
  { name := "OP_CHECKSIG"
    polys :=
      [cond * c.flag * (1 - c.flag),
        cond * (c.top - c.flag),
        cond * (c.keyAcc.cur -
          (c.keyAcc.prev + c.flag * (c.keyAcc.prev * (c.challenge.cur - 1) + c.topBefore))),
        cond * (c.checks.cur - c.checks.prev - c.flag),
        cond * c.stack[stackDepth - 1].cur,
        cond * c.dataLeft.next,
        cond * c.lengthLeft.next] ++ c.stackPopped cond }

/-- The key accumulator and the count change at signature checks only. -/
def accumulators (c : Columns) : Gate :=
  let cond := c.isByte.cur * (1 - c.opcodeRow * c.indicators.checkSignature.cur)
  { name := "public key accumulators unchanged"
    polys := [cond * (c.keyAcc.cur - c.keyAcc.prev), cond * (c.checks.cur - c.checks.prev)] }

/-- Behind the script the item on top is true. -/
def topTrue (c : Columns) : Gate where
  name := "stack top is true after execution"
  polys := [c.terminal * c.topFalse.indicator]

/-- The last row repeats the state and has nothing left to read. -/
def lastRow (c : Columns) : Gate where
  name := "last row"
  polys :=
    [c.isLast.cur * c.scriptLeft.cur,
      c.isLast.cur * c.dataLeft.cur,
      c.isLast.cur * c.lengthLeft.cur,
      c.isLast.cur * c.scriptAcc.cur,
      c.isLast.cur * (c.keyAcc.cur - c.keyAcc.prev),
      c.isLast.cur * (c.checks.cur - c.checks.prev)] ++ c.stackUnchanged c.isLast.cur 0

/-- All gates of the region. -/
def gates (c : Columns) : List Gate :=
  [c.scriptRead.gate "num_script_bytes_remaining" c.isByte.cur,
    c.noData.gate "num_data_bytes_remaining" c.isByte.cur,
    c.noLength.gate "num_data_length_bytes_remaining" c.isByte.cur,
    c.lastLength.gate "num_data_length_bytes_remaining - 1" c.isByte.cur,
    c.firstRow, c.sameChallenge, c.scriptByte, c.frozen, c.enabledOpcode, c.pushNumber, c.pushEmpty, c.nop, c.pushBytes,
    c.pushData c.indicators.pushData1 1, c.pushData c.indicators.pushData2 2, c.pushData c.indicators.pushData4 4,
    c.dataByte, c.lengthByte, c.checkSignature, c.accumulators,
    c.topFalse.gate "stack top truthiness" c.terminal, c.topTrue, c.lastRow]

/-- The lookup of every byte in the opcode table. -/
def lookups (c : Columns) : List Lookup :=
  [OpcodeTable.lookup c.isByte.cur c.opcode c.indicators c.table]

end ScriptCircuit.Execution.Columns

namespace ScriptCircuit.Execution

/-- Declares the execution region. -/
def configure : Configure Columns := do
  let c ← Columns.declare
  modify fun sys => (sys.addGates c.gates).addLookups c.lookups
  return c

end ScriptCircuit.Execution
