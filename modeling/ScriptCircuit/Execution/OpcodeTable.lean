import ScriptCircuit.Plonk.Layouter
import ScriptCircuit.Script.Opcode

/-!
# The opcode table

One row for every byte: the byte, whether it is enabled, and a one in the column of its class. A row of zeros behind them
is met by the rows on which the lookup is off.
-/

namespace ScriptCircuit

/-- The advice columns that say what a byte is: one for enabled opcodes and one for each class. -/
structure Indicators where
  enabled : Column
  pushEmpty : Column
  pushNumber : Column
  pushBytes : Column
  pushData1 : Column
  pushData2 : Column
  pushData4 : Column
  checkSignature : Column
deriving DecidableEq, Repr

/-- The columns, in the order of the table. -/
def Indicators.toList (i : Indicators) : List Column :=
  [i.enabled, i.pushEmpty, i.pushNumber, i.pushBytes, i.pushData1, i.pushData2, i.pushData4, i.checkSignature]

namespace OpcodeTable

/-- The height of the table. -/
def size : Nat := 257

/-- The number of columns of the table. -/
abbrev width : Nat := 9

/-- The name of the table. -/
def name : String := "opcode classification table"

/-- One for a class and zero for the others. -/
def oneHot (opcode : UInt8) (c : OpcodeClass) : Nat :=
  if Opcode.class? opcode = some c then 1 else 0

/-- What the table says of a byte, the byte itself apart. -/
def indicators (opcode : UInt8) : List Nat :=
  (if Opcode.enabled opcode then 1 else 0) :: OpcodeClass.all.map (oneHot opcode)

/-- The row of a byte. -/
def row (opcode : UInt8) : List Nat :=
  opcode.toNat :: indicators opcode

/-- The lookup of a byte and its indicators, where `enable` is one. -/
def lookup (enable : Expr) (opcode : Column) (i : Indicators) (table : Vector Column width) : Lookup where
  name := "opcode classification"
  entries := ((opcode :: i.toList).zip table.toList).map fun (input, column) => (enable * input.cur, column)

/-- The cells of the table. -/
def cells (table : Vector Column width) : List (Column × Nat × Felt) :=
  ((List.range 256).flatMap fun byte =>
    (table.toList.zip (row (.ofNat byte))).map fun (column, x) => (column, byte, .ofNat x)) ++
  table.toList.map fun column => (column, 256, 0)

end OpcodeTable

end ScriptCircuit
