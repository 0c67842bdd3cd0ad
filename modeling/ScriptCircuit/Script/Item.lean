import ScriptCircuit.Bytes.Hex
import ScriptCircuit.Field.Combination
import ScriptCircuit.Script.Stack

/-!
# Symbolic stack items

What a slot holds before it is put into the field: literal bytes, or a signature of which only the outcome of its check is
known. The empty byte string stands as 0x80, the negative zero, which counts as false like zero itself.
-/

namespace ScriptCircuit

/-- The element that stands for the empty byte string, also called the negative zero. -/
def negativeZero : Felt :=
  .ofNat 0x80

/-- A stack item. -/
inductive Item where
  | invalidSignature
  | validSignature
  | data (bytes : List UInt8)
deriving DecidableEq, Repr

namespace Item

/-- The items that are signatures. -/
def isSignature : Item → Bool
  | data _ => false
  | _ => true

/-- The element an item stands for in a stack slot. -/
def toFelt (r : Felt) : Item → Felt
  | invalidSignature => 0
  | validSignature => 1
  | data [] => negativeZero
  | data bytes => Combination.horner r 0 bytes

/-- The text of an item. -/
def text : Item → String
  | invalidSignature => "InvalidSignature"
  | validSignature => "ValidSignature"
  | data bytes => s!"Data({Hex.encode bytes})"

end Item

/-- The stack of a list of items, the top one first. -/
def Stack.ofItems (r : Felt) (items : List Item) : Except Error Stack :=
  if items.length > stackDepth then throw (.tooManyItems items.length)
  else pure (.ofList (items.map (·.toFelt r)))

end ScriptCircuit
