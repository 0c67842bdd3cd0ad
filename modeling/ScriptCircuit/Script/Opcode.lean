/-!
# Opcodes

The classes of script bytes the circuit tells apart. A byte in no class changes nothing; among those only the no-operation
is enabled, every other byte is disabled and left to the constraints.
-/

namespace ScriptCircuit

/-- The longest script the execution region can hold, in bytes. -/
def maxScriptSize : Nat := 520

/-- The number of stack slots. -/
abbrev stackDepth : Nat := 33

/-- The stack has a top slot. -/
theorem stackDepth_pos : 0 < stackDepth := by decide

/-- The stack has a slot below the top. -/
theorem one_lt_stackDepth : 1 < stackDepth := by decide

/-- The number of signature slots. -/
def maxSignatures : Nat := 4

/-- The classes of opcodes with an effect. -/
inductive OpcodeClass where
  /-- pushes the empty byte string -/
  | pushEmpty
  /-- pushes a small number -/
  | pushNumber
  /-- pushes as many bytes as the opcode says -/
  | pushBytes
  /-- pushes as many bytes as a field of one byte says -/
  | pushData1
  /-- pushes as many bytes as a field of two bytes says -/
  | pushData2
  /-- pushes as many bytes as a field of four bytes says -/
  | pushData4
  /-- checks a signature -/
  | checkSignature
deriving DecidableEq, Repr

namespace OpcodeClass

/-- All classes, in the order of their table columns. -/
def all : List OpcodeClass :=
  [pushEmpty, pushNumber, pushBytes, pushData1, pushData2, pushData4, checkSignature]

/-- The position of a class among all classes. -/
def index : OpcodeClass → Nat
  | pushEmpty => 0
  | pushNumber => 1
  | pushBytes => 2
  | pushData1 => 3
  | pushData2 => 4
  | pushData4 => 5
  | checkSignature => 6

/-- The number of bytes of the length field behind an opcode of this class, or none. -/
def lengthWidth? : OpcodeClass → Option Nat
  | pushData1 => some 1
  | pushData2 => some 2
  | pushData4 => some 4
  | _ => none

end OpcodeClass

namespace Opcode

/-- The opcode that does nothing. -/
def nop : UInt8 := 0x61

/-- The reserved opcode; the opcode of a small number is the number above it. -/
def reserved : UInt8 := 0x50

/-- The class of an opcode, if it has an effect. -/
def class? (opcode : UInt8) : Option OpcodeClass :=
  if opcode = 0x00 then some .pushEmpty
  else if 0x51 ≤ opcode ∧ opcode ≤ 0x60 then some .pushNumber
  else if 0x01 ≤ opcode ∧ opcode ≤ 0x4b then some .pushBytes
  else if opcode = 0x4c then some .pushData1
  else if opcode = 0x4d then some .pushData2
  else if opcode = 0x4e then some .pushData4
  else if opcode = 0xac then some .checkSignature
  else none

/-- The opcodes a satisfying script may execute. -/
def enabled (opcode : UInt8) : Bool :=
  (opcode ≤ nop && opcode != 0x4f && opcode != reserved) || opcode = 0xac

/-- The name of an opcode. -/
def name (opcode : UInt8) : String :=
  if opcode = 0x00 then "OP_0"
  else if 0x01 ≤ opcode ∧ opcode ≤ 0x4b then s!"OP_PUSHBYTES_{opcode.toNat}"
  else if opcode = 0x4c then "OP_PUSHDATA1"
  else if opcode = 0x4d then "OP_PUSHDATA2"
  else if opcode = 0x4e then "OP_PUSHDATA4"
  else if opcode = 0x4f then "OP_1NEGATE"
  else if opcode = reserved then "OP_RESERVED"
  else if 0x51 ≤ opcode ∧ opcode ≤ 0x60 then s!"OP_{opcode.toNat - 0x50}"
  else if opcode = nop then "OP_NOP"
  else if opcode = 0xac then "OP_CHECKSIG"
  else s!"OP_UNKNOWN(0x{String.ofList [Nat.digitChar (opcode.toNat / 16), Nat.digitChar (opcode.toNat % 16)]})"

end Opcode

end ScriptCircuit
