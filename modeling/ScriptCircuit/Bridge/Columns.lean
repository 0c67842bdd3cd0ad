import ScriptCircuit.Bridge.ParityTable
import ScriptCircuit.Bridge.Verification
import ScriptCircuit.Plonk.Gadget.ByteRange
import ScriptCircuit.Plonk.Gadget.IsZero
import ScriptCircuit.Script.Opcode

/-!
# The columns and gates of the signature bridge

One row for each signature slot and one row behind them. The accumulator of keys is folded upwards from the last slot in
use, while the count of checks falls to zero, and the key of each slot is put together from the bytes of its coordinates.
-/

namespace ScriptCircuit.Bridge

/-- The columns of the bridge. -/
structure Columns where
  verification : Verification
  range : ByteRange
  parity : ParityTable.Columns
  challenge : Column
  /-- the powers of the challenge with the exponents 1 to 64 -/
  powers : Vector Column 64
  checks : Column
  checksInverse : Column
  keyAcc : Column
  /-- the combination of the serial key -/
  keyCombination : Column
  /-- the first byte of the serial key -/
  form : Column
  /-- the bytes of both coordinates by turns, the least significant ones first -/
  coordinates : Vector Column 64
  /-- the rows of the slots -/
  isSlot : Column
  /-- the row behind the slots -/
  isEnd : Column
deriving DecidableEq

namespace Columns

/-- The bytes of the first coordinate, the least significant one first. -/
def x (c : Columns) : Vector Column 32 :=
  .ofFn fun i => c.coordinates[2 * i.val]

/-- The bytes of the second coordinate, the least significant one first. -/
def y (c : Columns) : Vector Column 32 :=
  .ofFn fun i => c.coordinates[2 * i.val + 1]

/-- Declares the columns next to those of the verification and of the byte decomposition. -/
def declare (verification : Verification) (range : ByteRange) : Configure Columns := do
  let challenge ← Configure.linkedAdvice "bridge_randomness"
  let powers ← Configure.adviceBlock 64
  let checks ← Configure.linkedAdvice "bridge_num_checksig_opcodes"
  let keyAcc ← Configure.linkedAdvice "bridge_pk_rlc_acc"
  let keyCombination ← Configure.namedAdvice "bridge_pk_rlc"
  let form ← Configure.namedAdvice "bridge_pk_prefix"
  let coordinates ← Configure.adviceBlock 64
  Configure.linkAll coordinates.toList
  let isSlot ← Configure.fixed
  let isEnd ← Configure.fixed
  let checksInverse ← Configure.advice
  let parity ← ParityTable.Columns.declare
  return { verification, range, parity, challenge, powers, checks, checksInverse, keyAcc, keyCombination, form,
           coordinates, isSlot, isEnd }

/-- The test for a slot behind the last signature. -/
def done (c : Columns) : IsZero := ⟨c.checks.cur, c.checksInverse⟩

/-- The power of the challenge with an exponent up to 64. -/
def power (c : Columns) (k : Nat) : Expr :=
  if k = 0 then 1 else (c.powers[k - 1]?.map Column.cur).getD 0

/-- All rows hold the same challenge, and its powers follow from each other. -/
def powersGate (c : Columns) : Gate where
  name := "randomness powers"
  polys :=
    [c.isSlot.cur * (c.challenge.next - c.challenge.cur), c.isSlot.cur * (c.power 1 - c.challenge.cur)] ++
      (List.range 63).map fun k => c.isSlot.cur * (c.power (k + 2) - c.power (k + 1) * c.challenge.cur)

/-- One for the first byte of a full serial key, zero for that of a short one. -/
def isFull (c : Columns) : Expr :=
  (c.form.cur - .ofNat 2) * (c.form.cur - .ofNat 3) * .const (Felt.ofNat 2).inv

/-- The combination of a short serial key. -/
def shortCombination (c : Columns) : Expr :=
  Expr.sum (c.form.cur * c.power 32 :: c.x.toList.zipIdx.map fun (x, k) => x.cur * c.power k)

/-- The combination of a full serial key. -/
def fullCombination (c : Columns) : Expr :=
  Expr.sum (c.form.cur * c.power 64 ::
    (c.x.toList.zip c.y.toList).zipIdx.flatMap fun ((x, y), k) => [x.cur * c.power (32 + k), y.cur * c.power k])

/-- The first byte is one of the three forms, and the combination is that of the key in this form. -/
def combinationGate (c : Columns) : Gate where
  name := "public key rlc"
  polys :=
    [c.isSlot.cur * (c.form.cur - .ofNat 2) * (c.form.cur - .ofNat 3) * (c.form.cur - .ofNat 4),
      c.isSlot.cur * (c.keyCombination.cur -
        ((1 - c.isFull) * c.shortCombination + c.isFull * c.fullCombination))]

/-- A slot in use folds its key and takes one from the count; behind them both are zero. -/
def foldGate (c : Columns) : Gate where
  name := "pk_rlc_acc folds verified keys"
  polys :=
    [c.isSlot.cur * (1 - c.done.indicator) *
        (c.keyAcc.cur - c.keyCombination.cur - c.challenge.cur * c.keyAcc.next),
      c.isSlot.cur * (1 - c.done.indicator) * (c.checks.next + 1 - c.checks.cur),
      c.isSlot.cur * c.done.indicator * c.keyAcc.cur,
      c.isSlot.cur * c.done.indicator * c.checks.next]

/-- Behind the slots nothing is left. -/
def endGate (c : Columns) : Gate where
  name := "every checksig consumed"
  polys := [c.isEnd.cur * c.checks.cur, c.isEnd.cur * c.keyAcc.cur]

/-- All gates of the bridge. -/
def gates (c : Columns) : List Gate :=
  [c.powersGate, c.combinationGate, c.done.gate "num_checksig_opcodes" c.isSlot.cur, c.foldGate, c.endGate]

/-- The lookup of the first byte and the last byte of the second coordinate in the parity table. -/
def lookups (c : Columns) : List Lookup :=
  [c.parity.lookup c.isSlot.cur c.form.cur c.y[0].cur]

end Columns

/-- Declares the bridge next to the verification and the byte decomposition. -/
def configure (verification : Verification) (range : ByteRange) : Configure Columns := do
  let c ← Columns.declare verification range
  modify fun sys => (sys.addGates c.gates).addLookups c.lookups
  return c

end ScriptCircuit.Bridge
