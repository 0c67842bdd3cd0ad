import ScriptCircuit.Bytes.Word
import ScriptCircuit.Curve.Residue

/-!
# The curve secp256k1

The points of y² = x³ + 7 over the residues modulo the prime 2^256 - 2^32 - 977, under the chord and tangent law with the
point at infinity as zero. The base point generates a group of prime order.
-/

namespace ScriptCircuit.Curve

/-- The prime modulus of coordinates. -/
abbrev prime : Nat := 0xfffffffffffffffffffffffffffffffffffffffffffffffffffffffefffffc2f

/-- The prime order of the base point. -/
abbrev order : Nat := 0xfffffffffffffffffffffffffffffffebaaedce6af48a03bbfd25e8cd0364141

/-- The prime is not zero, so there are residues of it. -/
theorem prime_ne_zero : prime ≠ 0 := by decide

/-- The order is not zero, so there are residues of it. -/
theorem order_ne_zero : order ≠ 0 := by decide

instance : @NeZero Nat .ofOfNat0 prime := ⟨prime_ne_zero⟩
instance : @NeZero Nat .ofOfNat0 order := ⟨order_ne_zero⟩

/-- A coordinate. -/
abbrev Coordinate := Fin prime

/-- A scalar: a residue modulo the order of the base point. -/
abbrev Scalar := Fin order

/-- A point of the plane, or the point at infinity. -/
inductive Point where
  | infinity
  | affine (x y : Coordinate)
deriving DecidableEq, Repr

namespace Point

/-- The right-hand side of the curve's equation. -/
def cubic (x : Coordinate) : Coordinate :=
  x * x * x + 7

/-- The points of the curve. -/
def onCurve : Point → Bool
  | infinity => true
  | affine x y => y * y = cubic x

/-- The base point. -/
def base : Point :=
  affine 0x79be667ef9dcbbac55a06295ce870b07029bfcdb2dce28d959f2815b16f81798
    0x483ada7726a3c4655da4fbfc0e1108a8fd17b448a68554199c47d08ffb10d4b8

/-- The third point of the line through `(x₁, y₁)` and a point with first coordinate `x₂`, with its sign changed. -/
def chord (slope x₁ y₁ x₂ : Coordinate) : Point :=
  let x₃ := slope * slope - x₁ - x₂
  affine x₃ (slope * (x₁ - x₃) - y₁)

/-- The sum of two points: the chord through them, the tangent at a point added to itself. -/
def add : Point → Point → Point
  | infinity, q => q
  | p, infinity => p
  | affine x₁ y₁, affine x₂ y₂ =>
    if x₁ = x₂ then
      if y₁ = -y₂ then infinity
      else chord (3 * (x₁ * x₁) * Residue.inv (y₁ + y₁)) x₁ y₁ x₂
    else chord ((y₁ - y₂) * Residue.inv (x₁ - x₂)) x₁ y₁ x₂

instance : Add Point := ⟨add⟩

/-- Double and add over the lowest `rounds` bits of the factor. -/
def mulRounds : Nat → Point → Point → Nat → Point
  | 0, acc, _, _ => acc
  | rounds + 1, acc, p, factor =>
    if factor = 0 then acc
    else mulRounds rounds (if factor % 2 = 1 then acc + p else acc) (p + p) (factor / 2)

/-- The multiple of a point by a scalar. -/
def mul (p : Point) (k : Scalar) : Point :=
  mulRounds 256 infinity p k.val

end Point

end ScriptCircuit.Curve
