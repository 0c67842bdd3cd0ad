import ScriptCircuit.Bytes.Hex
import ScriptCircuit.Curve.Point
import ScriptCircuit.Error

/-!
# Public keys

A public key is a pair of words, which need not be a point of the curve. Its serial form is 0x04 and both coordinates, or
0x02 or 0x03, for an even or odd second coordinate, and the first one; reading accepts points of the curve only.
-/

namespace ScriptCircuit

/-- A pair of coordinates, as words. -/
structure PublicKey where
  x : Word
  y : Word
deriving DecidableEq, Repr

namespace PublicKey

/-- The first byte of a serial form with both coordinates. -/
def fullForm : UInt8 := 0x04

/-- The first byte of a short serial form with an even second coordinate. -/
def evenForm : UInt8 := 0x02

/-- The first byte of a short serial form with an odd second coordinate. -/
def oddForm : UInt8 := 0x03

/-- The parity of the second coordinate. -/
def isOdd (k : PublicKey) : Bool :=
  k.y.toNat % 2 = 1

/-- The first byte of the serial form. -/
def form (k : PublicKey) (compressed : Bool) : UInt8 :=
  if compressed then (if k.isOdd then oddForm else evenForm) else fullForm

/-- The serial form, short or with both coordinates. -/
def serialize (k : PublicKey) (compressed : Bool) : List UInt8 :=
  k.form compressed :: k.x.bytes ++ (if compressed then [] else k.y.bytes)

/-- The text of a key. -/
def text (k : PublicKey) : String :=
  s!"(0x{Hex.encode k.x.bytes}, 0x{Hex.encode k.y.bytes})"

/-- The coordinates of a point of the curve that is not at infinity. -/
def ofPoint : Curve.Point → Except Error PublicKey
  | .infinity => throw .infinity
  | .affine x y => pure ⟨.ofNat 256 x.val, .ofNat 256 y.val⟩

/-- The point a key stands for: its coordinates modulo the prime, if they satisfy the curve's equation. -/
def toPoint? (k : PublicKey) : Option Curve.Point :=
  let p := Curve.Point.affine (.ofNat _ k.x.toNat) (.ofNat _ k.y.toNat)
  if p.onCurve then some p else none

/-- The parity of a coordinate. -/
def isOddValue (y : Curve.Coordinate) : Bool :=
  y.val % 2 = 1

/-- The point with a given first coordinate and parity of the second one. -/
def decompress? (odd : Bool) (x : Nat) : Option Curve.Point :=
  if h : x < Curve.prime then
    let y := Residue.sqrt (Curve.Point.cubic ⟨x, h⟩)
    let y := if isOddValue y = odd then y else -y
    let p := Curve.Point.affine ⟨x, h⟩ y
    if p.onCurve ∧ isOddValue y = odd then some p else none
  else none

/-- The point with given coordinates. -/
def full? (x y : Nat) : Option Curve.Point :=
  if h : x < Curve.prime ∧ y < Curve.prime then
    let p := Curve.Point.affine ⟨x, h.1⟩ ⟨y, h.2⟩
    if p.onCurve then some p else none
  else none

/-- Demands the length of a serial form. -/
def checkLength (first : UInt8) (bytes : List UInt8) (expected : Nat) : Except Error Unit :=
  if bytes.length = expected then pure () else throw (.keyLength first expected bytes.length)

/-- A point that was found, as a key. -/
def ofPoint? : Option Curve.Point → Except Error PublicKey
  | some p => ofPoint p
  | none => throw .keyOffCurve

/-- The key of a serial form. -/
def parse : List UInt8 → Except Error PublicKey
  | [] => throw .keyEmpty
  | first :: rest => do
    if first = evenForm ∨ first = oddForm then
      checkLength first (first :: rest) 33
      ofPoint? (decompress? (first = oddForm) (Word.natOfBytes rest))
    else if first = fullForm then
      checkLength first (first :: rest) 65
      ofPoint? (full? (Word.natOfBytes (rest.take 32)) (Word.natOfBytes (rest.drop 32)))
    else throw (.keyForm first)

/-- The base point of the curve. -/
def generator : PublicKey :=
  ⟨0x79be667ef9dcbbac55a06295ce870b07029bfcdb2dce28d959f2815b16f81798,
    0x483ada7726a3c4655da4fbfc0e1108a8fd17b448a68554199c47d08ffb10d4b8⟩

end PublicKey

/-- A public key that a script consumed with a valid signature, with the bytes it was read from. -/
structure ConsumedKey where
  bytes : List UInt8
  key : PublicKey
deriving DecidableEq, Repr

/-- The keys in short serial form. -/
def ConsumedKey.compressed (k : ConsumedKey) : Bool :=
  k.bytes.length = 33

end ScriptCircuit
