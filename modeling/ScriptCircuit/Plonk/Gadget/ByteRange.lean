import ScriptCircuit.Plonk.Layouter

/-!
# Decomposition into bytes

A running sum z₀ = value, zᵢ = 256 zᵢ₊₁ + bᵢ that ends in zero, with every bᵢ in a table of the bytes. A decomposition
into n bytes takes n + 1 rows, and its least significant byte comes first.
-/

namespace ScriptCircuit

/-- The columns of the decomposition. -/
structure ByteRange where
  runningSum : Column
  byte : Column
  /-- switches the recurrence on -/
  step : Column
  /-- switches the end on -/
  stop : Column
  table : Column
deriving DecidableEq, Repr

namespace ByteRange

/-- The height of the byte table. -/
def tableSize : Nat := 256

/-- The name of the byte table. -/
def tableName : String := "byte range table"

/-- The number of rows of a decomposition into bits. -/
def rowsFor (bits : Nat) : Nat :=
  bits / 8 + 1

/-- The recurrence and the end of the running sum. -/
def gates (b : ByteRange) : List Gate :=
  [⟨"byte decomposition running sum",
      [b.step.cur * (b.runningSum.cur - .ofNat 256 * b.runningSum.next - b.byte.cur)]⟩,
    ⟨"byte decomposition terminates at zero", [b.stop.cur * b.runningSum.cur]⟩]

/-- Every byte is in the table. -/
def lookups (b : ByteRange) : List Lookup :=
  [⟨"byte range", [(b.step.cur * b.byte.cur, b.table)]⟩]

/-- Declares the decomposition. -/
def configure : Configure ByteRange := do
  let runningSum ← Configure.linkedAdvice "range_running_sum"
  let byte ← Configure.linkedAdvice "range_byte"
  let step ← Configure.fixed
  let stop ← Configure.fixed
  let table ← Configure.fixed
  let b : ByteRange := { runningSum, byte, step, stop, table }
  modify fun sys => (sys.addGates b.gates).addLookups b.lookups
  return b

/-- The cells of the byte table. -/
def tableCells (b : ByteRange) : List (Column × Nat × Felt) :=
  (List.range tableSize).map fun row => (b.table, row, .ofNat row)

/-- Writes the running sum behind its first row and the bytes of the `count` rows from `offset` on. -/
def assignBytes (b : ByteRange) (offset value : Nat) : Nat → Fill (List AssignedCell)
  | 0 => do
    Fill.enable b.stop offset
    return []
  | count + 1 => do
    Fill.enable b.step offset
    let byte ← Fill.assignAdvice b.byte offset (.ofNat (value % 256))
    discard (Fill.assignAdvice b.runningSum (offset + 1) (.ofNat (value / 256)))
    return byte :: (← assignBytes b (offset + 1) (value / 256) count)

/-- Decomposes the value of a cell from an offset on and gives the cells of its bytes. The limbs must be bytes, the bits a
whole number of bytes below eight, and the value must fit. -/
def decompose (b : ByteRange) (sys : System) (offset : Nat) (source : AssignedCell) (width bits : Nat) :
    Fill (List AssignedCell) := do
  if width ≠ 8 then throw (.limbWidth width)
  if bits = 0 ∨ bits % 8 ≠ 0 ∨ 64 ≤ bits then throw (.bitCount bits)
  if source.value.toNat >>> bits ≠ 0 then throw (.tooWide source.value bits)
  discard (Fill.copyAdvice sys source b.runningSum offset)
  b.assignBytes offset source.value.toNat (bits / 8)

end ByteRange

end ScriptCircuit
