import ScriptCircuit.Script.Interpreter

/-!
# The interpreter in place

The interpreter as a machine that every call changes in place. Its counters are 64-bit words, which wrap, and a call that
fails keeps whatever it has changed before it failed.
-/

namespace ScriptCircuit

/-- What the next script byte is. -/
inductive Phase where
  | opcode
  | data
  | length
deriving DecidableEq, Repr

/-- What the next script byte is, with the words that count down a push. -/
structure Parse where
  phase : Phase
  /-- the bytes to come, of the data or of the length field -/
  remaining : UInt64
  /-- the length read so far -/
  decoded : UInt64
  /-- the weight of the next byte of a length field -/
  weight : UInt64
deriving DecidableEq, Repr

namespace Parse

/-- Between two instructions. -/
def idle : Parse :=
  ⟨.opcode, 0, 0, 0⟩

/-- In front of pushed data. -/
def fixedPush (bytes : UInt64) : Parse :=
  ⟨.data, bytes, 0, 0⟩

/-- In front of a length field. -/
def lengthField (bytes : UInt64) : Parse :=
  ⟨.length, bytes, 0, 1⟩

/-- The mode that the words stand for. -/
def mode (p : Parse) : Mode :=
  match p.phase with
  | .opcode => .opcode
  | .data => .data p.remaining.toNat
  | .length => .length p.remaining.toNat p.decoded.toNat p.weight.toNat

end Parse

/-- The interpreter in place. -/
structure Machine where
  /-- the challenge of all combinations -/
  challenge : Felt
  stack : Stack
  parse : Parse
  /-- the fold of the keys whose signature is valid -/
  keyAcc : Felt
  /-- the number of those keys -/
  checks : UInt64
deriving DecidableEq

namespace Machine

/-- What changes a machine; when it fails the changes so far stay. -/
abbrev Act := EStateM Error Machine

/-- The machine before the first byte. -/
def initial (challenge : Felt) (stack : Stack) : Machine :=
  { challenge, stack, parse := .idle, keyAcc := 0, checks := 0 }

/-- Puts an element on top of the stack. -/
def push (x : Felt) : Act Unit :=
  modify fun m => { m with stack := m.stack.push x }

/-- Takes the top of the stack. -/
def pop : Act Felt :=
  modifyGet fun m => (m.stack.top, { m with stack := m.stack.pop })

/-- Changes what the next byte is. -/
def expect (p : Parse) : Act Unit :=
  modify fun m => { m with parse := p }

/-- Checks a signature: its flag is read before the key and the flag are taken off the stack. -/
def checkSignature : Act Unit := do
  let flag ← liftExcept ((← get).stack.peek 1)
  if flag ≠ 0 ∧ flag ≠ 1 then throw (.signatureFlag flag)
  let key ← pop
  discard pop
  if flag = 1 then
    modify fun m => { m with keyAcc := m.keyAcc * m.challenge + key }
    modify fun m => { m with checks := m.checks + 1 }
  push flag
where
  /-- Fails as a computation without a machine does. -/
  liftExcept {α : Type} : Except Error α → Act α
    | .ok a => pure a
    | .error e => throw e

/-- Opens a push whose length field has `width` bytes. -/
def openLength (opcode : UInt8) (width left : UInt64) : Act Unit := do
  if width > left then throw (.lengthFieldOverrun (Opcode.name opcode))
  push 0
  expect (.lengthField width)

/-- Executes an opcode that `left` script bytes follow. -/
def execute (opcode : UInt8) (left : UInt64) : Act Unit := do
  match Opcode.class? opcode with
  | some .pushEmpty => push negativeZero
  | some .pushNumber => push (.ofByte (opcode - Opcode.reserved))
  | some .pushBytes =>
    if opcode.toUInt64 > left then throw (.pushOverrun opcode.toNat left.toNat)
    push 0
    expect (.fixedPush opcode.toUInt64)
  | some .pushData1 => openLength opcode 1 left
  | some .pushData2 => openLength opcode 2 left
  | some .pushData4 => openLength opcode 4 left
  | some .checkSignature => checkSignature
  | none => pure ()

/-- Appends a data byte to the item on top. -/
def appendData (byte : UInt8) : Act Unit := do
  modify fun m => { m with stack := m.stack.setTop (.ofByte byte + m.challenge * m.stack.top) }
  let p := (← get).parse
  if p.remaining = 1 then expect .idle
  else expect { p with remaining := p.remaining - 1 }

/-- The length read so far after one more byte of a length field. -/
def lengthWith (m : Machine) (byte : UInt8) : UInt64 :=
  m.parse.decoded + byte.toUInt64 * m.parse.weight

/-- Takes a byte of a length field; the last one opens the data. -/
def takeLength (byte : UInt8) (left : UInt64) : Act Unit := do
  let p := (← get).parse
  let decoded := (← get).lengthWith byte
  if p.remaining = 1 then
    if decoded = 0 then throw .zeroLengthPush
    if decoded > left then throw (.dataOverrun decoded.toNat left.toNat)
    expect (.fixedPush decoded)
  else
    expect { p with decoded := decoded, weight := p.weight * 256, remaining := p.remaining - 1 }

/-- The row of a byte read by one machine and leading to another. -/
def row (before after : Machine) (byte : UInt8) : Row where
  opcode := byte
  mode := before.parse.mode
  scriptAcc := 0
  scriptLeft := 0
  dataLeft :=
    match before.parse.phase with
    | .opcode => 0
    | .data => before.parse.remaining.toNat
    | .length => (before.lengthWith byte).toNat
  lengthLeft :=
    match before.parse.phase with
    | .length => before.parse.remaining.toNat
    | _ => 0
  lengthWeight :=
    match before.parse.phase with
    | .length => before.parse.weight.toNat
    | _ => 0
  stack := after.stack
  keyAcc := after.keyAcc
  checks := after.checks.toNat
  isPadding := false

/-- Applies a byte that `left` script bytes follow. -/
def apply (byte : UInt8) (left : UInt64) : Act Unit := do
  match (← get).parse.phase with
  | .opcode => execute byte left
  | .data => appendData byte
  | .length => takeLength byte left

/-- One call: the byte is applied and its row returned. -/
def step (byte : UInt8) (left : UInt64) : Act Row := do
  let before ← get
  apply byte left
  return row before (← get) byte

/-- The machine that a result leaves, a failure included. -/
def leaves {α : Type} : EStateM.Result Error Machine α → Machine
  | .ok _ m => m
  | .error _ m => m

/-- The machine after a sequence of calls, some of which may have failed. -/
def after (m : Machine) (calls : List (UInt8 × UInt64)) : Machine :=
  calls.foldl (fun m call => leaves ((step call.1 call.2).run m)) m

end Machine

end ScriptCircuit
