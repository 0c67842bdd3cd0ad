import ScriptCircuit.Bytes.Hex
import ScriptCircuit.Json.Basic

/-!
# Reading JSON

A recursive descent over the characters of a text. Every call on a value or on the rest of an array or object spends one
unit of fuel; a text of `n` characters has at most `n` of each, so `2 * n + 2` units are enough for every text.
-/

namespace ScriptCircuit.Json

/-- The text without leading blanks. -/
def skipBlanks (text : List Char) : List Char :=
  text.dropWhile fun c => c = ' ' ∨ c = '\t' ∨ c = '\n' ∨ c = '\r'

/-- The number of four hexadecimal digits. -/
def hexUnit? (a b c d : Char) : Option Nat := do
  return ((← Hex.digit? a) * 16 + (← Hex.digit? b)) * 256 + (← Hex.digit? c) * 16 + (← Hex.digit? d)

/-- The character of an escape sequence of one letter. -/
def shortEscape? : Char → Option Char
  | '"' => some '"'
  | '\\' => some '\\'
  | '/' => some '/'
  | 'b' => some '\x08'
  | 'f' => some '\x0c'
  | 'n' => some '\n'
  | 'r' => some '\r'
  | 't' => some '\t'
  | _ => none

/-- The character that an escape sequence stands for, behind its backslash; a character beyond 16 bits takes two units. -/
def escape? : List Char → Option (Char × List Char)
  | 'u' :: a :: b :: c :: d :: rest => do
    let unit ← hexUnit? a b c d
    if 0xd800 ≤ unit ∧ unit < 0xdc00 then
      match rest with
      | '\\' :: 'u' :: e :: f :: g :: h :: rest =>
        let low ← hexUnit? e f g h
        if 0xdc00 ≤ low ∧ low < 0xe000 then
          return (.ofNat (0x10000 + (unit - 0xd800) * 0x400 + (low - 0xdc00)), rest)
        none
      | _ => none
    else if 0xdc00 ≤ unit ∧ unit < 0xe000 then none
    else return (.ofNat unit, rest)
  | c :: rest => return (← shortEscape? c, rest)
  | [] => none

/-- The characters of a string behind its opening quote, put in reverse in front of `done`. -/
def stringChars (fuel : Nat) (done : List Char) (text : List Char) : Option (String × List Char) :=
  match fuel, text with
  | _, '"' :: rest => some (String.ofList done.reverse, rest)
  | fuel + 1, '\\' :: rest => do
    let (c, rest) ← escape? rest
    stringChars fuel (c :: done) rest
  | fuel + 1, c :: rest => if c.toNat < 0x20 then none else stringChars fuel (c :: done) rest
  | _, _ => none

/-- A string, from its opening quote on. -/
def parseString : List Char → Option (String × List Char)
  | '"' :: rest => stringChars (rest.length + 1) [] rest
  | _ => none

/-- The number of a list of decimal digits. -/
def ofDigits (digits : List Char) : Nat :=
  digits.foldl (fun n c => 10 * n + (c.toNat - '0'.toNat)) 0

/-- The digits at the start of a text, of which there must be one. -/
def digits (text : List Char) : Option (List Char × List Char) :=
  let digits := text.takeWhile Char.isDigit
  if digits.isEmpty then none else some (digits, text.dropWhile Char.isDigit)

/-- The fraction of a number, if there is one: its digits. -/
def fraction : List Char → Option (Option (List Char) × List Char)
  | '.' :: rest => do
    let (fractionDigits, rest) ← digits rest
    return (some fractionDigits, rest)
  | text => some (none, text)

/-- The digits of an exponent with their sign. -/
def signedExponent : List Char → Option (Int × List Char)
  | '-' :: rest => do
    let (exponentDigits, rest) ← digits rest
    return (-(ofDigits exponentDigits : Int), rest)
  | '+' :: rest => do
    let (exponentDigits, rest) ← digits rest
    return ((ofDigits exponentDigits : Int), rest)
  | text => do
    let (exponentDigits, rest) ← digits text
    return ((ofDigits exponentDigits : Int), rest)

/-- The exponent of a number, if there is one. -/
def exponent : List Char → Option (Option Int × List Char)
  | 'e' :: rest | 'E' :: rest => do
    let (e, rest) ← signedExponent rest
    return (some e, rest)
  | text => some (none, text)

/-- The digits before the point: zero, or digits that start with another one. -/
def integerDigits : List Char → Option (List Char × List Char)
  | '0' :: rest => some (['0'], rest)
  | text => digits text

/-- A number without its sign. -/
def unsignedNumber (negative : Bool) (text : List Char) : Option (JsonNumber × List Char) := do
  let (whole, rest) ← integerDigits text
  let (fractionDigits, rest) ← fraction rest
  let (e, rest) ← exponent rest
  let sign (n : Nat) : Int := if negative then -(n : Int) else n
  match fractionDigits, e with
  | none, none => return (.integer (sign (ofDigits whole)), rest)
  | _, _ =>
    let after := fractionDigits.getD []
    return (.decimal (sign (ofDigits (whole ++ after))) (e.getD 0 - after.length), rest)

/-- A number. -/
def parseNumber : List Char → Option (JsonNumber × List Char)
  | '-' :: rest => unsignedNumber true rest
  | text => unsignedNumber false text

mutual

/-- A value, which may have blanks before it. -/
def parseValue (fuel : Nat) (text : List Char) : Option (Json × List Char) :=
  match fuel with
  | 0 => none
  | fuel + 1 =>
    match skipBlanks text with
    | 'n' :: 'u' :: 'l' :: 'l' :: rest => some (.null, rest)
    | 't' :: 'r' :: 'u' :: 'e' :: rest => some (.bool true, rest)
    | 'f' :: 'a' :: 'l' :: 's' :: 'e' :: rest => some (.bool false, rest)
    | '"' :: rest => do
      let (s, rest) ← parseString ('"' :: rest)
      return (.string s, rest)
    | '[' :: rest =>
      match skipBlanks rest with
      | ']' :: rest => some (.array [], rest)
      | rest => do
        let (items, rest) ← parseItems fuel rest
        return (.array items, rest)
    | '\x7b' :: rest =>
      match skipBlanks rest with
      | '\x7d' :: rest => some (.object [], rest)
      | rest => do
        let (fields, rest) ← parseFields fuel rest
        return (.ofFields fields, rest)
    | rest => do
      let (n, rest) ← parseNumber rest
      return (.number n, rest)

/-- The items of an array and its closing bracket. -/
def parseItems (fuel : Nat) (text : List Char) : Option (List Json × List Char) :=
  match fuel with
  | 0 => none
  | fuel + 1 => do
    let (item, rest) ← parseValue fuel text
    match skipBlanks rest with
    | ',' :: rest =>
      let (items, rest) ← parseItems fuel rest
      return (item :: items, rest)
    | ']' :: rest => return ([item], rest)
    | _ => none

/-- The fields of an object and its closing brace. -/
def parseFields (fuel : Nat) (text : List Char) : Option (List (String × Json) × List Char) :=
  match fuel with
  | 0 => none
  | fuel + 1 => do
    let (key, rest) ← parseString (skipBlanks text)
    match skipBlanks rest with
    | ':' :: rest =>
      let (value, rest) ← parseValue fuel rest
      match skipBlanks rest with
      | ',' :: rest =>
        let (fields, rest) ← parseFields fuel rest
        return ((key, value) :: fields, rest)
      | '\x7d' :: rest => return ([(key, value)], rest)
      | _ => none
    | _ => none

end

/-- The document of a text. -/
def parse (text : String) : Except Error Json :=
  let chars := text.toList
  match parseValue (2 * chars.length + 2) chars with
  | some (value, rest) => if (skipBlanks rest).isEmpty then pure value else throw .notJson
  | none => throw .notJson

end ScriptCircuit.Json
