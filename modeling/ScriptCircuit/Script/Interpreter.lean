import ScriptCircuit.Script.Item

/-!
# The interpreter

One script byte at a time. A byte is an opcode, or one of the bytes a push still expects, or one of the bytes of the
little-endian length field of a push; the mode says which. A step that fails has no next state, so the state before it
stays in force.
-/

namespace ScriptCircuit

/-- What the next script byte is. -/
inductive Mode where
  /-- an opcode -/
  | opcode
  /-- pushed data, with the number of bytes to come -/
  | data (left : Nat)
  /-- a length field, with the number of its bytes to come, the length read so far and the weight of the next byte -/
  | length (left decoded weight : Nat)
deriving DecidableEq, Repr

namespace Mode

/-- The name of a mode. -/
def name : Mode → String
  | opcode => "Idle"
  | data _ => "PendingFixedPush"
  | length .. => "PendingLengthField"

/-- The bytes to come. -/
def left : Mode → Nat
  | opcode => 0
  | data left => left
  | length left _ _ => left

/-- The length read so far. -/
def decoded : Mode → Nat
  | length _ decoded _ => decoded
  | _ => 0

/-- The weight of the next byte of a length field. -/
def weight : Mode → Nat
  | length _ _ weight => weight
  | _ => 0

end Mode

/-- One row of a run. The counters describe the state in which the byte was read, the stack and the accumulators the state
after it. -/
structure Row where
  opcode : UInt8
  /-- the mode in which the byte was read -/
  mode : Mode
  /-- the combination of the script bytes that follow -/
  scriptAcc : Felt
  /-- the script bytes to come, this one included -/
  scriptLeft : Nat
  /-- the data bytes to come, or the length read up to and with this byte of a length field -/
  dataLeft : Nat
  /-- the bytes of the length field to come, this one included -/
  lengthLeft : Nat
  /-- the weight of this byte of a length field -/
  lengthWeight : Nat
  stack : Stack
  keyAcc : Felt
  checks : Nat
  /-- the row stands behind the script -/
  isPadding : Bool
deriving DecidableEq

/-- The state between two script bytes. -/
structure State where
  /-- the challenge of all combinations -/
  challenge : Felt
  stack : Stack
  mode : Mode
  /-- the fold of the keys whose signature is valid -/
  keyAcc : Felt
  /-- the number of those keys -/
  checks : Nat
deriving DecidableEq

namespace State

/-- The state before the first byte. -/
def initial (challenge : Felt) (stack : Stack) : State :=
  { challenge, stack, mode := .opcode, keyAcc := 0, checks := 0 }

/-- Checks a signature: its flag, the item below the key, replaces both; a valid one counts and folds its key. -/
def checkSignature (s : State) : Except Error State :=
  let flag := getElem s.stack 1 one_lt_stackDepth
  let rest := s.stack.pop.pop.push flag
  if flag = 0 then pure { s with stack := rest }
  else if flag = 1 then
    pure { s with
      stack := rest
      keyAcc := s.keyAcc * s.challenge + s.stack.top
      checks := s.checks + 1 }
  else throw (.signatureFlag flag)

/-- Opens a push whose length field has `width` bytes; its data starts from zero. -/
def openLength (s : State) (opcode : UInt8) (width left : Nat) : Except Error State :=
  if width > left then throw (.lengthFieldOverrun (Opcode.name opcode))
  else pure { s with stack := s.stack.push 0, mode := .length width 0 1 }

/-- Executes an opcode that `left` script bytes follow. -/
def execute (s : State) (opcode : UInt8) (left : Nat) : Except Error State :=
  match Opcode.class? opcode with
  | some .pushEmpty => pure { s with stack := s.stack.push negativeZero }
  | some .pushNumber => pure { s with stack := s.stack.push (.ofByte (opcode - Opcode.reserved)) }
  | some .pushBytes =>
    if opcode.toNat > left then throw (.pushOverrun opcode.toNat left)
    else pure { s with stack := s.stack.push 0, mode := .data opcode.toNat }
  | some .pushData1 => s.openLength opcode 1 left
  | some .pushData2 => s.openLength opcode 2 left
  | some .pushData4 => s.openLength opcode 4 left
  | some .checkSignature => s.checkSignature
  | none => pure s

/-- Appends a data byte to the item on top, with `dataLeft` bytes to come before it. -/
def appendData (s : State) (byte : UInt8) (dataLeft : Nat) : State :=
  { s with
    stack := s.stack.setTop (.ofByte byte + s.challenge * s.stack.top)
    mode := if dataLeft = 1 then .opcode else .data (dataLeft - 1) }

/-- Takes a byte of a length field, with `fieldLeft` bytes to come before it; the last one opens the data, which must be
there and fit into the `left` script bytes that follow. -/
def takeLength (s : State) (byte : UInt8) (fieldLeft decoded weight left : Nat) : Except Error State :=
  let length := decoded + byte.toNat * weight
  if fieldLeft = 1 then
    if length = 0 then throw .zeroLengthPush
    else if length > left then throw (.dataOverrun length left)
    else pure { s with mode := .data length }
  else pure { s with mode := .length (fieldLeft - 1) length (weight * 256) }

/-- The state after a byte that `left` script bytes follow. -/
def next (s : State) (byte : UInt8) (left : Nat) : Except Error State :=
  match s.mode with
  | .opcode => s.execute byte left
  | .data dataLeft => pure (s.appendData byte dataLeft)
  | .length fieldLeft decoded weight => s.takeLength byte fieldLeft decoded weight left

/-- The row of a byte read in one state and leading to another. -/
def row (before after : State) (byte : UInt8) : Row where
  opcode := byte
  mode := before.mode
  scriptAcc := 0
  scriptLeft := 0
  dataLeft :=
    match before.mode with
    | .opcode => 0
    | .data left => left
    | .length _ decoded weight => decoded + byte.toNat * weight
  lengthLeft :=
    match before.mode with
    | .length left _ _ => left
    | _ => 0
  lengthWeight := before.mode.weight
  stack := after.stack
  keyAcc := after.keyAcc
  checks := after.checks
  isPadding := false

/-- One step: the row of the byte and the state after it. -/
def step (s : State) (byte : UInt8) (left : Nat) : Except Error (Row × State) := do
  let after ← s.next byte left
  return (row s after byte, after)

end State

end ScriptCircuit
