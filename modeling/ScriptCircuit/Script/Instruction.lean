import ScriptCircuit.Error

/-!
# Instructions

A script read by whole instructions: an opcode that stands alone, or a push together with all its data. Positions count
script bytes and appear only in the causes of failure.
-/

namespace ScriptCircuit

/-- An instruction. -/
inductive Instruction where
  /-- a push of data whose length the script gives -/
  | push (data : List UInt8)
  /-- an opcode that stands alone -/
  | single (opcode : UInt8)
deriving DecidableEq, Repr

namespace Instruction

/-- Cuts `count` bytes off a script whose rest starts at `position`. -/
def takeBytes (position count : Nat) (rest : List UInt8) : Except Error (List UInt8 × List UInt8) :=
  if count > rest.length then throw (.pushPastEnd count position)
  else pure (rest.take count, rest.drop count)

/-- The number whose base-256 digits are the bytes, the least significant one first. -/
def littleEndian : List UInt8 → Nat
  | [] => 0
  | b :: rest => b.toNat + 256 * littleEndian rest

/-- A push whose length field has `width` bytes. -/
def readPushData (position width : Nat) (rest : List UInt8) : Except Error (Instruction × List UInt8) := do
  let (field, rest) ← takeBytes position width rest
  let length := littleEndian field
  if length = 0 then throw .zeroLengthPush
  let (data, rest) ← takeBytes (position + width) length rest
  return (.push data, rest)

/-- The instruction of an opcode and the bytes behind it, which start at `position`, and what follows the instruction. -/
def read (position : Nat) (opcode : UInt8) (rest : List UInt8) : Except Error (Instruction × List UInt8) :=
  match Opcode.class? opcode with
  | some .pushBytes => do
    let (data, rest) ← takeBytes position opcode.toNat rest
    return (.push data, rest)
  | some .pushData1 => readPushData position 1 rest
  | some .pushData2 => readPushData position 2 rest
  | some .pushData4 => readPushData position 4 rest
  | _ => pure (.single opcode, rest)

/-- Taking bytes leaves no more of the script than there was. -/
theorem takeBytes_length_le {position count : Nat} {rest : List UInt8} {out : List UInt8 × List UInt8}
    (h : takeBytes position count rest = .ok out) : out.2.length ≤ rest.length := by
  unfold takeBytes at h
  split at h
  · cases h
  · cases h
    simp

/-- Reading a push with a length field leaves no more of the script than there was. -/
theorem readPushData_length_le {position width : Nat} {rest : List UInt8} {out : Instruction × List UInt8}
    (h : readPushData position width rest = .ok out) : out.2.length ≤ rest.length := by
  simp only [readPushData, bind, Except.bind] at h
  split at h
  · cases h
  · rename_i field hfield
    have h₁ := takeBytes_length_le hfield
    split at h
    · cases h
    · split at h
      · cases h
      · rename_i data hdata
        have h₂ := takeBytes_length_le hdata
        cases h
        exact Nat.le_trans h₂ h₁

/-- Reading an instruction leaves no more bytes than it was given. -/
theorem read_length_le {position : Nat} {opcode : UInt8} {rest : List UInt8} {out : Instruction × List UInt8}
    (h : read position opcode rest = .ok out) : out.2.length ≤ rest.length := by
  unfold read at h
  split at h
  · simp only [bind, Except.bind] at h
    split at h
    · cases h
    · rename_i data hdata
      cases h
      exact takeBytes_length_le hdata
  · exact readPushData_length_le h
  · exact readPushData_length_le h
  · exact readPushData_length_le h
  · cases h
    exact Nat.le_refl _

end Instruction

end ScriptCircuit
