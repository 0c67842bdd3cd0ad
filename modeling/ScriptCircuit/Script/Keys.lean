import ScriptCircuit.Curve.PublicKey
import ScriptCircuit.Script.Instruction
import ScriptCircuit.Script.Item

/-!
# The keys a script consumes

A replay of a script over symbolic items that gathers, in script order, the public key of every check of a valid
signature. It demands more than a trace: two items for each check, the lower one a signature, and a key that can be read.
-/

namespace ScriptCircuit.Keys

/-- The items of a symbolic stack, the top one first, and the keys consumed so far, the latest one first. -/
structure Replay where
  items : List Item
  keys : List ConsumedKey
deriving DecidableEq

/-- Puts an item on top; what falls below the last slot is lost. -/
def Replay.push (s : Replay) (item : Item) : Replay :=
  { s with items := (item :: s.items).take stackDepth }

/-- Checks the signature below the key on top, at a position of the script. -/
def Replay.checkSignature (s : Replay) (position : Nat) : Except Error Replay :=
  match s.items with
  | key :: signature :: rest =>
    match signature, key with
    | .data bytes, _ => throw (.checksigNoSignature position (Item.text (.data bytes)))
    | .invalidSignature, _ => pure { s with items := .invalidSignature :: rest }
    | .validSignature, .data bytes => do
      let key ← PublicKey.parse bytes
      pure { items := .validSignature :: rest, keys := ⟨bytes, key⟩ :: s.keys }
    | .validSignature, _ => throw .signatureAsKey
  | items => throw (.checksigUnderflow position items.length)

/-- Executes an instruction whose first byte stands at a position of the script. -/
def Replay.execute (s : Replay) (position : Nat) : Instruction → Except Error Replay
  | .push data => pure (s.push (.data data))
  | .single opcode =>
    match Opcode.class? opcode with
    | some .pushEmpty => pure (s.push (.data []))
    | some .pushNumber => pure (s.push (.data [opcode - Opcode.reserved]))
    | some .checkSignature => s.checkSignature position
    | _ => pure s

/-- Replays what is left of a script from a position. -/
def Replay.run (s : Replay) (position : Nat) (script : List UInt8) : Except Error Replay :=
  match script with
  | [] => pure s
  | opcode :: rest =>
    match h : Instruction.read (position + 1) opcode rest with
    | .error e => throw e
    | .ok out =>
      match s.execute position out.1 with
      | .error e => throw e
      | .ok next =>
        have := Instruction.read_length_le h
        next.run (position + 1 + rest.length - out.2.length) out.2
termination_by script.length
decreasing_by
  simp only [List.length_cons]
  omega

/-- Replays a script over a list of items, the top one first. -/
def replay (script : List UInt8) (items : List Item) : Except Error Replay :=
  if script.length > maxScriptSize then throw (.replayTooLong script.length)
  else Replay.run ⟨items.take stackDepth, []⟩ 0 script

/-- The keys of the valid signatures that a script checks, in script order. -/
def collect (script : List UInt8) (items : List Item) : Except Error (List ConsumedKey) :=
  return (← replay script items).keys.reverse

end ScriptCircuit.Keys
