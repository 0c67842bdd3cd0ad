import ScriptCircuit.Curve.PublicKey

/-!
# Signatures

Elliptic curve signatures of 256-bit hashes, made with an explicit nonce. A hash is not reduced before use; sums and
products are taken modulo the order of the base point.
-/

namespace ScriptCircuit

open Curve

/-- A signature. -/
structure Signature where
  r : Word
  s : Word
deriving DecidableEq, Repr

namespace Signature

/-- The scalar of a word that is neither zero nor too large. -/
def scalar? (w : Word) : Option Scalar :=
  if h : w.toNat < order then (if w = 0 then none else some ⟨w.toNat, h⟩) else none

/-- The word of a scalar. -/
def word (k : Scalar) : Word :=
  .ofNat 256 k.val

/-- The first coordinate of a point, modulo the order of the base point; the point at infinity has none. -/
def abscissa? : Point → Option Scalar
  | .infinity => none
  | .affine x _ => some (.ofNat _ x.val)

/-- The public key of a secret key: its multiple of the base point. -/
def publicKey (secret : Word) : Except Error PublicKey :=
  match scalar? secret with
  | none => throw .secretRange
  | some sk => PublicKey.ofPoint (Point.base.mul sk)

/-- The signature of a hash: `r` is the first coordinate of the nonce's multiple of the base point, `s` the quotient of
`hash + r * secret` by the nonce. -/
def sign (secret nonce hash : Word) : Except Error Signature :=
  match scalar? secret, scalar? nonce with
  | some sk, some k =>
    match abscissa? (Point.base.mul k) with
    | none => throw .infinity
    | some r =>
      let s := (r * sk + .ofNat _ hash.toNat) * Residue.inv k
      if r = 0 ∨ s = 0 then throw .degenerateNonce
      else pure ⟨word r, word s⟩
  | _, _ => throw .secretOrNonceRange

/-- Signature verification; a key stands for its coordinates modulo the prime. -/
def verifies (g : Signature) (key : PublicKey) (hash : Word) : Bool :=
  match scalar? g.r, scalar? g.s, key.toPoint? with
  | some r, some s, some q =>
    let w := Residue.inv s
    let p := Point.base.mul (.ofNat _ hash.toNat * w) + q.mul (r * w)
    abscissa? p = some r
  | _, _, _ => false

/-- The hash every signature of a circuit is made for. -/
def messageHash : Word := 1

/-- The signature that fills a slot without one: that of the secret key one with the nonce one. -/
def paddingSignature : Except Error Signature :=
  sign 1 1 messageHash

end Signature

end ScriptCircuit
