import ScriptCircuit.Circuit
import ScriptCircuit.Json.Basic

/-!
# Documents

What a prover knows of a spend is read from a JSON document with a hexadecimal `script`; the challenge `randomness`, the
list `initial_stack` with the top item first, and the list `signatures` in script order may be missing. Traces and
failures are written as documents.
-/

namespace ScriptCircuit

namespace Document

/-- The challenge of a document: any number, zero if there is none. -/
def challenge (doc : Json) : Except Error Felt :=
  match doc.field? "randomness" with
  | none => pure 0
  | some (.number n) => pure (.ofWord n.toWord)
  | some other => throw (.notNumber other.typeName)

/-- An item of the initial stack: a signature, by the outcome of its check, or hexadecimal data. -/
def item : Json → Except Error Item
  | .string "valid_signature" => pure .validSignature
  | .string "invalid_signature" => pure .invalidSignature
  | .string text => return .data (← Hex.decode text)
  | _ => throw .inputItem

/-- A scalar of a signature: 32 hexadecimal bytes. -/
def scalar (entry : Json) (field : String) : Except Error Word :=
  match entry.field? field with
  | some (.string text) => do
    let bytes ← Hex.decode text
    if bytes.length ≠ 32 then throw (.inputScalarLength field)
    return Word.ofBytes bytes
  | _ => throw (.inputScalar field)

/-- A signature with its key in serial form. -/
def signedKey (entry : Json) : Except Error Bridge.SignedKey :=
  match entry.field? "public_key" with
  | some (.string text) => do
    let r ← scalar entry "r"
    let s ← scalar entry "s"
    let key ← PublicKey.parse (← Hex.decode text)
    return ⟨⟨r, s⟩, key⟩
  | _ => throw .inputKey

/-- The entries of a list that may be missing. -/
def entries (doc : Json) (field : String) : List Json :=
  (doc.field? field).elim [] Json.elements

/-- The spend a document describes. -/
def spend (doc : Json) : Except Error Spend :=
  match doc.field? "script" with
  | some (.string text) => do
    let script ← Hex.decode text
    let challenge ← challenge doc
    let items ← (entries doc "initial_stack").mapM item
    let signatures ← (entries doc "signatures").mapM signedKey
    return { script, challenge, items, signatures }
  | _ => throw .inputScript

/-- The document of a field element: its canonical value. -/
def felt (a : Felt) : Json :=
  .ofNat a.toNat

/-- The document of a row of a trace. -/
def row (index : Nat) (r : Row) : Json :=
  .ofFields [
    ("row", .ofNat index),
    ("opcode", .ofNat r.opcode.toNat),
    ("opcode_name", .string (Opcode.name r.opcode)),
    ("mode", .string r.mode.name),
    ("script_rlc_acc", felt r.scriptAcc),
    ("num_script_bytes_remaining", .ofNat r.scriptLeft),
    ("num_data_bytes_remaining", .ofNat r.dataLeft),
    ("num_data_length_bytes_remaining", .ofNat r.lengthLeft),
    ("stack_top", felt r.stack.top),
    ("pk_rlc_acc", felt r.keyAcc),
    ("num_checksig_opcodes", .ofNat r.checks),
    ("is_padding", .bool r.isPadding)]

/-- The rows of a trace that its document lists: all up to the first row behind the script, and the last one. -/
def listedRows (scriptLength : Nat) : List Nat :=
  List.range (min (scriptLength + 1) maxScriptSize + 1) ++ [maxScriptSize + 1]

/-- The document of a trace. -/
def trace (t : Trace) : Json :=
  let rows := t.rows.toArray
  .ofFields [
    ("script_length", .ofNat t.script.length),
    ("randomness", felt t.challenge),
    ("initial_script_rlc", felt t.scriptCombination),
    ("pk_rlc_acc", felt t.lastRow.keyAcc),
    ("num_checksig_opcodes", .ofNat t.lastRow.checks),
    ("public_inputs", .array (t.publicValues.map felt)),
    ("final_stack", .array (t.lastRow.stack.toList.map felt)),
    ("rows", .array ((listedRows t.script.length).filterMap fun index => rows[index]?.map (row index)))]

/-- The document of failures: their texts. -/
def failures (fs : List Failure) : Json :=
  .array (fs.map fun f => .string f.text)

end Document

end ScriptCircuit
