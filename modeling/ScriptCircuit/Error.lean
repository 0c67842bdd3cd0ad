import ScriptCircuit.Field.Basic
import ScriptCircuit.Plonk.Column
import ScriptCircuit.Script.Opcode

/-!
# Causes of failure

One type names every cause for which an operation of this library gives no answer. `Error.message` is what is said of
it and `Error.category` the class a caller can act on.
-/

namespace ScriptCircuit

/-- The class of a failure. -/
inductive Error.Category where
  /-- an argument breaks a rule of the operation -/
  | argument
  /-- the operation has no value at this point -/
  | domain
  /-- a row, column, offset or depth lies outside its range -/
  | range
  /-- the call comes in the wrong phase -/
  | phase
  /-- the world or the witness did not meet what was demanded -/
  | runtime
  /-- the inputs of a witness contradict each other -/
  | synthesis
  /-- a JSON value has the wrong type -/
  | jsonType
deriving DecidableEq, Repr

/-- A cause of failure. -/
inductive Error where
  /-- the inverse of zero was asked for -/
  | zeroInverse
  /-- a list to be inverted holds zero -/
  | zeroInBatch
  /-- hex digits come in pairs -/
  | oddHexLength (text : String)
  /-- a character is no hex digit -/
  | hexCharacter (text : String)
  /-- the stack has no slot at this depth -/
  | stackDepth (depth : Nat)
  /-- an initial stack has more items than slots -/
  | tooManyItems (count : Nat)
  /-- a direct push runs past the end of the script -/
  | pushOverrun (length left : Nat)
  /-- the length field of a push runs past the end of the script -/
  | lengthFieldOverrun (opcode : String)
  /-- a push with a length field runs past the end of the script -/
  | dataOverrun (length left : Nat)
  /-- a length field says zero -/
  | zeroLengthPush
  /-- the item below the key is no flag -/
  | signatureFlag (value : Felt)
  /-- the script does not fit into the execution region -/
  | scriptTooLong (size : Nat)
  /-- the script ended while data was expected -/
  | endedInsidePush
  /-- the script to replay does not fit into the execution region -/
  | replayTooLong (size : Nat)
  /-- the replay of a push runs past the end of the script -/
  | pushPastEnd (count position : Nat)
  /-- a signature check over fewer than two items -/
  | checksigUnderflow (position size : Nat)
  /-- a signature check over an item that is no signature -/
  | checksigNoSignature (position : Nat) (item : String)
  /-- a signature check with a signature as its key -/
  | signatureAsKey
  /-- a public key without bytes -/
  | keyEmpty
  /-- a public key starts with an unknown byte -/
  | keyForm (first : UInt8)
  /-- a public key has the wrong length for its first byte -/
  | keyLength (first : UInt8) (expected actual : Nat)
  /-- a public key is no point of the curve -/
  | keyOffCurve
  /-- a secret key is zero or too large -/
  | secretRange
  /-- a secret key or a nonce is zero or too large -/
  | secretOrNonceRange
  /-- a nonce gives a signature with a zero part -/
  | degenerateNonce
  /-- the point at infinity has no coordinates -/
  | infinity
  /-- a gate without polynomials -/
  | emptyGate (name : String)
  /-- a lookup without inputs -/
  | emptyLookup (name : String)
  /-- a copy constraint names a column outside the permutation -/
  | notEqualityEnabled (column : String)
  /-- instance columns have no cells to assign or read in the matrix -/
  | instanceNotAssigned
  /-- the matrix has no such column -/
  | unknownColumn (column : Column)
  /-- the matrix has no such row -/
  | rowOutside (row rows : Nat)
  /-- the region has no such offset -/
  | offsetOutside (region : String) (offset height : Nat)
  /-- an advice column was expected -/
  | notAdvice (region : String) (column : Column)
  /-- a fixed column was expected -/
  | notFixed (region : String) (column : Column)
  /-- a table is longer than planned -/
  | tableRow (table : String) (row planned : Nat)
  /-- a region can be planned only before allocation -/
  | regionAfterAllocation (name : String)
  /-- a table can be planned only before allocation -/
  | tableAfterAllocation (name : String)
  /-- the matrix exists already -/
  | alreadyAllocated
  /-- the matrix does not exist yet -/
  | notAllocated
  /-- no region has this number -/
  | unknownRegion (index : Nat)
  /-- an instance column was expected -/
  | notInstance (column : Column)
  /-- the number of instance columns differs from the system's -/
  | instanceCount (expected actual : Nat)
  /-- an instance column has more values than the matrix has rows -/
  | instanceTooLong
  /-- a copy constraint names an instance column that was not supplied -/
  | instanceIndex (index count : Nat)
  /-- the witness does not satisfy the system -/
  | unsatisfied (count : Nat) (shown : List String)
  /-- a decomposition into limbs that are no bytes -/
  | limbWidth (width : Nat)
  /-- a decomposition into no whole number of bytes -/
  | bitCount (bits : Nat)
  /-- a value has more bits than its decomposition -/
  | tooWide (value : Felt) (bits : Nat)
  /-- the execution region or the trace has the wrong height -/
  | executionHeight (expected height rows : Nat)
  /-- more signatures than slots -/
  | tooManySignatures (maximum count : Nat)
  /-- the script checks another number of signatures -/
  | signatureCount (supplied checked : Nat)
  /-- a signature comes with another key than the script checks -/
  | keyMismatch (index : Nat)
  /-- a signature does not verify under its key -/
  | signatureRejected (key : String)
  /-- an input document without script -/
  | inputScript
  /-- an initial stack entry that is no text -/
  | inputItem
  /-- a signature entry without public key -/
  | inputKey
  /-- a signature entry whose scalar is no text -/
  | inputScalar (field : String)
  /-- a signature entry whose scalar is not 32 bytes long -/
  | inputScalarLength (field : String)
  /-- a number was expected in a document -/
  | notNumber (type : String)
  /-- a text is no JSON document -/
  | notJson
  /-- a file cannot be read -/
  | cannotOpen (path : String)
  /-- a file cannot be written -/
  | cannotWrite (path : String)
deriving DecidableEq

namespace Error

/-- The digits of a byte in base sixteen, without a leading zero. -/
def hexDigits (b : UInt8) : String :=
  String.ofList (Nat.toDigits 16 b.toNat)

/-- The wording of a failure, with the texts it quotes as they stand. -/
def wording : Error → String
  | zeroInverse => "Cannot invert zero"
  | zeroInBatch => "batch_inversion encountered zero element"
  | oddHexLength t => s!"hex string has odd length: {t}"
  | hexCharacter t => s!"invalid hex character in: {t}"
  | stackDepth d => s!"ScriptStack::peek_at: depth {d} exceeds stack depth {ScriptCircuit.stackDepth}"
  | tooManyItems n => s!"initial stack holds {n} items, maximum is {ScriptCircuit.stackDepth}"
  | pushOverrun n left => s!"push of {n} bytes overruns the script ({left} bytes left)"
  | lengthFieldOverrun opcode => s!"{opcode} length field overruns the script"
  | dataOverrun n left => s!"OP_PUSHDATA of {n} bytes overruns the script ({left} bytes left)"
  | zeroLengthPush => "OP_PUSHDATA with zero data length"
  | signatureFlag v => s!"OP_CHECKSIG signature flag must be 0 or 1, got {v.text}"
  | scriptTooLong n => s!"script of {n} bytes exceeds MAX_SCRIPT_PUBKEY_SIZE ({maxScriptSize})"
  | endedInsidePush => "script ended inside a push"
  | replayTooLong n => s!"script of {n} bytes exceeds {maxScriptSize}"
  | pushPastEnd n position => s!"push of {n} bytes at position {position} overruns the script"
  | checksigUnderflow position n => s!"OP_CHECKSIG at position {position} needs two stack items, found {n}"
  | checksigNoSignature position item =>
    s!"OP_CHECKSIG at position {position} expects a signature below the public key, found {item}"
  | signatureAsKey => "OP_CHECKSIG public key is a signature"
  | keyEmpty => "public key is empty"
  | keyForm b => s!"unknown public key prefix 0x{hexDigits b}"
  | keyLength b expected actual => s!"public key with prefix {b.toNat} must be {expected} bytes, got {actual}"
  | keyOffCurve => "public key is not a point on secp256k1"
  | secretRange => "secret key out of range"
  | secretOrNonceRange => "secret key or nonce out of range"
  | degenerateNonce => "nonce yields a degenerate signature"
  | infinity => "secp256k1: point at infinity has no affine form"
  | emptyGate name => s!"gate '{name}' has no constraints"
  | emptyLookup name => s!"lookup '{name}' has no inputs"
  | notEqualityEnabled column => s!"copy constraint on {column}, which is not equality-enabled"
  | instanceNotAssigned => "instance values are supplied to the MockProver, not assigned"
  | unknownColumn c => s!"unknown column {c.text}"
  | rowOutside row rows => s!"row {row} outside circuit of {rows} rows"
  | offsetOutside region offset height => s!"region '{region}': offset {offset} outside height {height}"
  | notAdvice region c => s!"region '{region}': {c.text} is not an advice column"
  | notFixed region c => s!"region '{region}': {c.text} is not a fixed column"
  | tableRow table row planned => s!"table '{table}': row {row} exceeds planned size {planned}"
  | regionAfterAllocation name => s!"Layouter: cannot plan region '{name}' after allocation"
  | tableAfterAllocation name => s!"Layouter: cannot plan table '{name}' after allocation"
  | alreadyAllocated => "Layouter: already allocated"
  | notAllocated => "Layouter: not allocated"
  | unknownRegion i => s!"Layouter: unknown region {i}"
  | notInstance c => s!"constrain_instance: {c.text} is not an instance column"
  | instanceCount expected actual => s!"MockProver: expected {expected} instance columns, got {actual}"
  | instanceTooLong => "MockProver: instance column longer than the circuit"
  | instanceIndex i n => s!"vector::_M_range_check: __n (which is {i}) >= this->size() (which is {n})"
  | unsatisfied n shown =>
    s!"MockProver: {n} constraint failure(s)" ++ String.join (shown.map fun line => s!"\n  {line}")
  | limbWidth w => s!"RangeCheckChip: only 8-bit limbs are supported, got {w}"
  | bitCount bits => s!"RangeCheckChip: cannot decompose into {bits} bits"
  | tooWide v bits => s!"RangeCheckChip: value {v.text} does not fit in {bits} bits"
  | executionHeight expected height rows =>
    s!"ExecutionChip::assign: expected {expected} rows, region has {height} and trace has {rows}"
  | tooManySignatures maximum n => s!"at most {maximum} signatures are supported, got {n}"
  | signatureCount supplied checked =>
    s!"synthesis error: {supplied} signatures supplied but the script checks {checked} valid signatures"
  | keyMismatch i => s!"synthesis error: public key of signature {i} does not match the key consumed by the script"
  | signatureRejected key => s!"synthesis error: ECDSA signature does not verify under public key {key}"
  | inputScript => "input must be an object with a hex 'script' field"
  | inputItem => "initial_stack entries must be strings"
  | inputKey => "signature entry needs a hex 'public_key'"
  | inputScalar field => s!"signature field '{field}' must be a hex string"
  | inputScalarLength field => s!"signature field '{field}' must be 32 bytes"
  | notNumber type => s!"[json.exception.type_error.302] type must be number, but is {type}"
  | notJson => "not a JSON document"
  | cannotOpen path => s!"Failed to open file: {path}"
  | cannotWrite path => s!"cannot write {path}"

/-- The message of a failure: its wording, which a null character in a quoted text ends. -/
def message (e : Error) : String :=
  String.ofList (e.wording.toList.takeWhile (· != '\x00'))

/-- The class of a failure. -/
def category : Error → Category
  | zeroInverse | zeroInBatch => .domain
  | stackDepth _ | unknownColumn _ | rowOutside .. | offsetOutside .. | tableRow .. | unknownRegion _
  | instanceIndex .. => .range
  | endedInsidePush | regionAfterAllocation _ | tableAfterAllocation _ | alreadyAllocated | notAllocated => .phase
  | infinity | unsatisfied .. | notJson | cannotOpen _ | cannotWrite _ => .runtime
  | signatureCount .. | keyMismatch _ | signatureRejected _ => .synthesis
  | notNumber _ => .jsonType
  | _ => .argument

end Error

end ScriptCircuit
