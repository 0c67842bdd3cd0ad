import ScriptCircuit.Error

/-!
# Hexadecimal text

A byte is written as two lower-case digits. Reading takes digits of either case behind an optional `0x` or `0X`. It works on
the bytes of a text, so a text with an odd number of them behind the mark is refused for its length whatever they are.
-/

namespace ScriptCircuit.Hex

/-- The lower-case digit of a number below sixteen. -/
def digitChar (n : Nat) : Char :=
  Nat.digitChar n

/-- The two digits of a byte, the upper one first. -/
def byteChars (b : UInt8) : List Char :=
  [digitChar (b.toNat / 16), digitChar (b.toNat % 16)]

/-- The text of a byte string. -/
def encode (bytes : List UInt8) : String :=
  String.ofList (bytes.flatMap byteChars)

/-- The value of a digit of either case. -/
def digit? (c : Char) : Option Nat :=
  if '0' ≤ c ∧ c ≤ '9' then some (c.toNat - '0'.toNat)
  else if 'a' ≤ c ∧ c ≤ 'f' then some (c.toNat - 'a'.toNat + 10)
  else if 'A' ≤ c ∧ c ≤ 'F' then some (c.toNat - 'A'.toNat + 10)
  else none

/-- The bytes of a text of digit pairs. -/
def pairs? : List UInt8 → Option (List UInt8)
  | [] => some []
  | [_] => none
  | upper :: lower :: rest =>
    match digit? (.ofUInt8 upper), digit? (.ofUInt8 lower), pairs? rest with
    | some u, some l, some bytes => some (UInt8.ofNat (16 * u + l) :: bytes)
    | _, _, _ => none

/-- The text without its mark `0x` or `0X`. -/
def unmarked : List UInt8 → List UInt8
  | 0x30 :: 0x78 :: rest => rest
  | 0x30 :: 0x58 :: rest => rest
  | text => text

/-- The bytes that a text spells. The text comes as bytes, which may be no UTF-8; failures quote it as `quoted`. -/
def read (quoted : String) (text : List UInt8) : Except Error (List UInt8) :=
  let body := unmarked text
  if body.length % 2 = 1 then throw (.oddHexLength quoted)
  else
    match pairs? body with
    | some bytes => pure bytes
    | none => throw (.hexCharacter quoted)

/-- The bytes of a text in UTF-8. -/
def utf8 (text : String) : List UInt8 :=
  text.toUTF8.data.toList

/-- The bytes of a hexadecimal text. -/
def decode (text : String) : Except Error (List UInt8) :=
  read text (utf8 text)

end ScriptCircuit.Hex
