import ScriptCircuit.Curve.Signature
import ScriptCircuit.Plonk.Layouter

/-!
# The rows of verified signatures

One row for each signature: the limbs of its two scalars, the limbs of the key, and a cell that must be one. The signature
is verified while the row is written. No gate relates the limbs of the signature to those of the key.
-/

namespace ScriptCircuit

/-- The columns of a verified signature. -/
structure Verification where
  r : Vector Column 8
  s : Vector Column 8
  x : Vector Column 8
  y : Vector Column 8
  verified : Column
  enable : Column
deriving DecidableEq

/-- The cells of the limbs of a key. -/
structure KeyLimbs where
  x : List AssignedCell
  y : List AssignedCell
deriving DecidableEq

namespace Verification

/-- The verified cell is one. -/
def gates (v : Verification) : List Gate :=
  [⟨"ecdsa signature verified", [v.enable.cur * (v.verified.cur - 1)]⟩]

/-- Declares a named block of limbs. -/
def declareLimbs (name : String) : Configure (Vector Column 8) := do
  let block ← Configure.adviceBlock 8
  Configure.labelBlock s!"ecdsa_{name}" block
  return block

/-- Declares the columns; the limbs of keys take part in copy constraints. -/
def configure : Configure Verification := do
  let r ← declareLimbs "r"
  let s ← declareLimbs "s"
  let x ← declareLimbs "x"
  let y ← declareLimbs "y"
  Configure.linkAll (x.toList ++ y.toList)
  let verified ← Configure.namedAdvice "ecdsa_verified"
  let enable ← Configure.fixed
  let v : Verification := { r, s, x, y, verified, enable }
  modify (·.addGates v.gates)
  return v

/-- Writes the limbs of a word. -/
def assignLimbs (block : Vector Column 8) (offset : Nat) (w : Word) : Fill (List AssignedCell) :=
  (block.toList.zip w.limbs.toList).mapM fun (column, limb) => Fill.assignAdvice column offset (.ofNat limb)

/-- Verifies a signature and writes its row. -/
def assign (v : Verification) (offset : Nat) (g : Signature) (key : PublicKey) (hash : Word) : Fill KeyLimbs := do
  if !g.verifies key hash then throw (.signatureRejected key.text)
  Fill.enable v.enable offset
  discard (assignLimbs v.r offset g.r)
  discard (assignLimbs v.s offset g.s)
  let x ← assignLimbs v.x offset key.x
  let y ← assignLimbs v.y offset key.y
  discard (Fill.assignAdvice v.verified offset 1)
  return { x, y }

end Verification

end ScriptCircuit
