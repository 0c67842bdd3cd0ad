import ScriptCircuit.Field.Basic

/-!
# Words of 256 bits

Coordinates, scalars and hashes are words of 256 bits. Written as 32 bytes the most significant byte comes first; cut into
eight limbs of 32 bits the least significant limb comes first.
-/

namespace ScriptCircuit

/-- A word of 256 bits. -/
abbrev Word := BitVec 256

namespace Word

/-- Byte `i` of a word, counted from the least significant one. -/
def byteAt (w : Word) (i : Nat) : UInt8 :=
  UInt8.ofNat (w.toNat >>> (8 * i))

/-- The 32 bytes of a word, the most significant one first. -/
def bytes (w : Word) : List UInt8 :=
  (List.range 32).map fun i => w.byteAt (31 - i)

/-- The number whose base-256 digits are the bytes, the most significant one first. -/
def natOfBytes (bytes : List UInt8) : Nat :=
  bytes.foldl (fun acc b => 256 * acc + b.toNat) 0

/-- The word of a byte string, the most significant byte first. -/
def ofBytes (bytes : List UInt8) : Word :=
  .ofNat 256 (natOfBytes bytes)

/-- Limb `i` of a word, counted from the least significant one. -/
def limb (w : Word) (i : Nat) : Nat :=
  w.toNat >>> (32 * i) % UInt32.size

/-- The eight limbs of a word, the least significant one first. -/
def limbs (w : Word) : Vector Nat 8 :=
  .ofFn fun i => w.limb i

end Word

end ScriptCircuit
