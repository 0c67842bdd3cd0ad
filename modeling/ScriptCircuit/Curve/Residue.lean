/-!
# Residues

Powers, inverses and square roots of residues modulo a number below 2^256, by square and multiply over the bits of the
exponent. For a prime modulus `inv` is the inverse and for a prime that is three modulo four `sqrt` is a root of every
square.
-/

namespace ScriptCircuit.Residue

/-- The residue of one, for a modulus that has a residue. -/
def one {n : Nat} (a : Fin n) : Fin n :=
  ⟨1 % n, Nat.mod_lt 1 a.pos⟩

/-- Square and multiply over the lowest `rounds` bits of the exponent. -/
def powRounds {n : Nat} : Nat → Fin n → Fin n → Nat → Fin n
  | 0, acc, _, _ => acc
  | rounds + 1, acc, base, exponent =>
    powRounds rounds (if exponent % 2 = 1 then acc * base else acc) (base * base) (exponent / 2)

/-- The power with an exponent below 2^256. -/
def pow {n : Nat} (base : Fin n) (exponent : Nat) : Fin n :=
  powRounds 256 (one base) base exponent

/-- The inverse by Fermat, for a prime modulus; zero is sent to zero. -/
def inv {n : Nat} (a : Fin n) : Fin n :=
  pow a (n - 2)

/-- The square root of a square, for a prime modulus that is three modulo four. -/
def sqrt {n : Nat} (a : Fin n) : Fin n :=
  pow a ((n + 1) / 4)

end ScriptCircuit.Residue
