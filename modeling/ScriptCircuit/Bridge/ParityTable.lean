import ScriptCircuit.Curve.PublicKey
import ScriptCircuit.Plonk.Layouter

/-!
# The parity table

Binds the first byte of a serial key to the least significant byte of its second coordinate: 0x04 goes with every byte,
0x02 with the even and 0x03 with the odd ones. A row of zeros stands at the end.
-/

namespace ScriptCircuit.ParityTable

/-- The height of the table. -/
def size : Nat := 513

/-- The name of the table. -/
def name : String := "public key parity table"

/-- The form of a short serial key whose second coordinate ends in a byte. -/
def shortForm (byte : UInt8) : UInt8 :=
  if byte.toNat % 2 = 0 then PublicKey.evenForm else PublicKey.oddForm

/-- The rows: a first byte and a byte of the second coordinate. -/
def rows : List (UInt8 × UInt8) :=
  let bytes := (List.range 256).map UInt8.ofNat
  bytes.map (fun byte => (PublicKey.fullForm, byte)) ++ bytes.map (fun byte => (shortForm byte, byte)) ++ [(0, 0)]

/-- The columns of the table. -/
structure Columns where
  form : Column
  byte : Column
deriving DecidableEq, Repr

namespace Columns

/-- Declares the columns. -/
def declare : Configure Columns := do
  let form ← Configure.fixed
  let byte ← Configure.fixed
  return { form, byte }

/-- The lookup of a first byte and a byte of the second coordinate, where `enable` is one. -/
def lookup (t : Columns) (enable form byte : Expr) : Lookup where
  name := "public key parity"
  entries := [(enable * form, t.form), (enable * byte, t.byte)]

/-- The cells of the table. -/
def cells (t : Columns) : List (Column × Nat × Felt) :=
  rows.zipIdx.flatMap fun ((form, byte), row) => [(t.form, row, .ofByte form), (t.byte, row, .ofByte byte)]

end Columns

end ScriptCircuit.ParityTable
