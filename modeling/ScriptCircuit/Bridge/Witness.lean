import ScriptCircuit.Bridge.Columns
import ScriptCircuit.Field.Combination

/-!
# The witness of the signature bridge

The signatures of a script, with their keys, fill the slots from the last signature to the first, so that the fold of the
bridge ends in the first slot; the slots left over hold the signature of a fixed key. Every slot is verified, its key is
cut into bytes, and the bridge rows are written over those bytes.
-/

namespace ScriptCircuit.Bridge

/-- A signature with the key it is checked under. -/
structure SignedKey where
  signature : Signature
  key : PublicKey
deriving DecidableEq, Repr

/-- What fills a slot: a signature, its key, and the first byte of the key's serial form. -/
structure Slot where
  signature : Signature
  key : PublicKey
  form : UInt8
deriving DecidableEq, Repr

/-- The slots of signatures and the keys a script consumed, which must go together one by one. -/
def Slot.ofSignatures (signatures : List SignedKey) (keys : List ConsumedKey) : Except Error (List Slot) := do
  if signatures.length > maxSignatures then throw (.tooManySignatures maxSignatures signatures.length)
  if signatures.length ≠ keys.length then throw (.signatureCount signatures.length keys.length)
  (signatures.zip keys).zipIdx.forM fun ((signed, consumed), i) =>
    if signed.key = consumed.key then pure () else throw (.keyMismatch i)
  let padding ← Signature.paddingSignature
  let used := (signatures.zip keys).map fun (signed, consumed) =>
    ({ signature := signed.signature, key := signed.key, form := consumed.bytes.headD 0 } : Slot)
  let unused : Slot := ⟨padding, PublicKey.generator, PublicKey.generator.form true⟩
  return used.reverse ++ List.replicate (maxSignatures - signatures.length) unused

/-- The combination of a serial key, as a stack slot holds it. -/
def keyCombination (key : PublicKey) (compressed : Bool) (r : Felt) : Felt :=
  Combination.horner r 0 (key.serialize compressed)

/-- The combination of the key of a slot. -/
def Slot.combination (slot : Slot) (r : Felt) : Felt :=
  keyCombination slot.key (slot.form ≠ PublicKey.fullForm) r

/-- The fold of combinations from the last to the first, with the results for every tail. -/
def foldKeys (r : Felt) : List Felt → List Felt
  | [] => [0]
  | key :: rest =>
    match foldKeys r rest with
    | [] => []
    | acc :: accs => (key + r * acc) :: acc :: accs

/-- The cells of the first bridge row that the execution region must agree with. -/
structure Cells where
  challenge : AssignedCell
  keyAcc : AssignedCell
  checks : AssignedCell
deriving DecidableEq

/-- The cells, in order. -/
def Cells.toList (c : Cells) : List AssignedCell :=
  [c.challenge, c.keyAcc, c.checks]

/-- The regions of the bridge, by their numbers. -/
structure Regions where
  verification : Nat
  range : Nat
  bridge : Nat
deriving DecidableEq, Repr

/-- The cells of the bytes of a key, the least significant ones first. -/
structure KeyBytes where
  x : List AssignedCell
  y : List AssignedCell
deriving DecidableEq

namespace Columns

/-- The number of rows of one limb in the range region. -/
def limbRows : Nat := ByteRange.rowsFor 32

/-- The number of rows of one slot in the range region. -/
def slotRows : Nat := 16 * limbRows

/-- Plans the regions and tables of the bridge. -/
def plan : Synthesis Regions := do
  let verification ← Synthesis.planRegion "ecdsa" maxSignatures
  let range ← Synthesis.planRegion "public key range check" (maxSignatures * slotRows)
  let bridge ← Synthesis.planRegion "checksig bridge" (maxSignatures + 1)
  Synthesis.planTable ParityTable.name ParityTable.size
  Synthesis.planTable ByteRange.tableName ByteRange.tableSize
  return { verification, range, bridge }

/-- Writes the tables of the bridge. -/
def load (c : Columns) : Synthesis Unit := do
  Synthesis.fillTable ParityTable.name c.parity.cells
  Synthesis.fillTable ByteRange.tableName c.range.tableCells

/-- Decomposes the limbs of a key, pair by pair, from an offset of the range region on. -/
def assignBytes (c : Columns) (sys : System) (offset : Nat) : List (AssignedCell × AssignedCell) → Fill KeyBytes
  | [] => return ⟨[], []⟩
  | (xLimb, yLimb) :: rest => do
    let x ← c.range.decompose sys offset xLimb 8 32
    let y ← c.range.decompose sys (offset + 8 * limbRows) yLimb 8 32
    let bytes ← assignBytes c sys (offset + limbRows) rest
    return ⟨x ++ bytes.x, y ++ bytes.y⟩

/-- Verifies the slots from number `i` on and decomposes their keys. -/
def assignSlots (c : Columns) (sys : System) (i : Nat) (verification range : Region) :
    List Slot → Synthesis (List KeyBytes × Region × Region)
  | [] => return ([], verification, range)
  | slot :: rest => do
    let (limbs, verification) ← Synthesis.fill verification
      (c.verification.assign i slot.signature slot.key Signature.messageHash)
    let (bytes, range) ← Synthesis.fill range (c.assignBytes sys (i * slotRows) (limbs.x.zip limbs.y))
    let (others, verification, range) ← assignSlots c sys (i + 1) verification range rest
    return (bytes :: others, verification, range)

/-- Writes what all bridge rows have. -/
def assignAccumulators (c : Columns) (row : Nat) (r : Felt) (count : Nat) (acc : Felt) : Fill Cells := do
  let challenge ← Fill.assignAdvice c.challenge row r
  let checks ← Fill.assignAdvice c.checks row (.ofNat count)
  let keyAcc ← Fill.assignAdvice c.keyAcc row acc
  return { challenge, keyAcc, checks }

/-- Writes what the row of a slot has besides. -/
def assignSlot (c : Columns) (sys : System) (row : Nat) (r : Felt) (count : Nat) (slot : Slot) (bytes : KeyBytes) :
    Fill Unit := do
  Fill.enable c.isSlot row
  (c.powers.toList.zip ((Combination.powers r 64).drop 1)).forM fun (column, power) =>
    discard (Fill.assignAdvice column row power)
  discard (c.done.assign row (.ofNat count))
  discard (Fill.assignAdvice c.keyCombination row (slot.combination r))
  discard (Fill.assignAdvice c.form row (.ofByte slot.form))
  ((c.x.toList.zip c.y.toList).zip (bytes.x.zip bytes.y)).forM fun ((xColumn, yColumn), xByte, yByte) => do
    discard (Fill.copyAdvice sys xByte xColumn row)
    discard (Fill.copyAdvice sys yByte yColumn row)

/-- Writes the bridge rows from number `row` on, `count` of which hold a signature of the script, over the accumulators of
these rows; the last row stands behind the slots. -/
def assignRows (c : Columns) (sys : System) (r : Felt) (row count : Nat) :
    List (Slot × KeyBytes) → List Felt → Fill Unit
  | [], accs => do
    discard (c.assignAccumulators row r count (accs.headD 0))
    Fill.enable c.isEnd row
  | (slot, bytes) :: rest, accs => do
    discard (c.assignAccumulators row r count (accs.headD 0))
    c.assignSlot sys row r count slot bytes
    assignRows c sys r (row + 1) (count - 1) rest accs.tail

/-- The shared cells of a bridge region that starts at a row. -/
def cells (c : Columns) (start : Nat) (r acc : Felt) (count : Nat) : Cells where
  challenge := ⟨⟨c.challenge, start⟩, r⟩
  keyAcc := ⟨⟨c.keyAcc, start⟩, acc⟩
  checks := ⟨⟨c.checks, start⟩, .ofNat count⟩

/-- Fills the regions of the bridge for signatures, in script order, and the keys the script consumed. -/
def assign (c : Columns) (sys : System) (regions : Regions) (r : Felt) (signatures : List SignedKey)
    (keys : List ConsumedKey) : Synthesis Cells := do
  let slots ← Slot.ofSignatures signatures keys
  let verification ← Synthesis.region regions.verification
  let range ← Synthesis.region regions.range
  let (bytes, verification, range) ← c.assignSlots sys 0 verification range slots
  let bridge ← Synthesis.region regions.bridge
  let count := signatures.length
  let accs := foldKeys r ((slots.take count).map (·.combination r))
  let ((), bridge) ← Synthesis.fill bridge (c.assignRows sys r 0 count (slots.zip bytes) accs)
  Synthesis.commit sys verification
  Synthesis.commit sys range
  Synthesis.commit sys bridge
  return c.cells bridge.start r (accs.headD 0) count

end Columns

end ScriptCircuit.Bridge
