import Mathlib
import ScriptCircuit.Curve.Point
import ScriptCircuit.Proofs.Field.Prime

/-!
# The modulus and the order are prime

Certificates for the modulus and for the order of the base point. The predecessors of both have large prime factors, whose
certificates stand before theirs.
-/

namespace ScriptCircuit.Curve

namespace PrimeAux

/-- The small factors of the certificates. -/
def smallFactors : List Nat :=
  [2, 3, 5, 7, 11, 17, 29, 31, 41, 53, 59, 109, 149, 293, 461, 631, 1627, 2621, 2657, 4051, 4423, 5323, 7723, 13441, 16699,
    24809, 28181, 41201, 85831, 96557, 120233, 305873, 1627771, 4681609, 7240687, 13331831, 44706919]

/-- The certificates for the large factors of the modulus less one, and for the modulus. -/
def modulusCertificates : List Certificate :=
  [⟨6, [(2, 3), (5, 2), (2621, 1), (24809, 1), (13331831, 1)]⟩,
    ⟨5, [(173378833005251801, 1), (2, 3), (3, 1), (5323, 1)]⟩,
    ⟨6, [(22149492674086928081353, 1), (2, 1), (3, 1)]⟩,
    ⟨3, [(2, 4), (5, 4), (7, 1), (29, 1), (53, 1)]⟩,
    ⟨3, [(107590001, 1), (2, 3), (7, 2), (11, 1), (1627, 1), (2657, 1), (4423, 1), (41201, 1), (96557, 1), (7240687, 1)]⟩,
    ⟨10, [(132896956044521568488119, 1), (255515944373312847190720520512484175977, 1), (2, 1), (3, 1), (5, 1), (29, 2),
      (31, 1), (7723, 1)]⟩,
    ⟨3, [(205115282021455665897114700593932402728804164701536103180137503955397371, 1), (2, 1), (3, 1), (7, 1), (13441, 1)]⟩]

/-- The certificates for the large factors of the order less one, and for the order. -/
def orderCertificates : List Certificate :=
  [⟨2, [(2, 2), (3, 2), (11, 1), (461, 1), (1627771, 1)]⟩,
    ⟨5, [(2, 3), (41, 1), (59, 1), (28181, 1)]⟩,
    ⟨2, [(545358713, 1), (297159362677, 1), (2, 1), (293, 1), (305873, 1)]⟩,
    ⟨2, [(29047611873442575647497758179, 1), (2, 2), (3, 3), (109, 1)]⟩,
    ⟨3, [(2, 3), (17, 1), (59, 1), (4051, 1), (120233, 1), (44706919, 1)]⟩,
    ⟨3, [(2, 4), (16699, 1), (85831, 1), (4681609, 1)]⟩,
    ⟨7, [(107361793816595537, 1), (174723607534414371449, 1), (341948486974166000522343609283189, 1), (2, 6), (3, 1), (149, 1),
      (631, 1)]⟩]

/-- The small factors are prime. -/
theorem prime_of_mem_smallFactors : ∀ p ∈ smallFactors, p.Prime := by
  unfold smallFactors
  norm_num

/-- A number with a certificate in a list that passes is prime. -/
theorem prime_of_certificates (certificates : List Certificate)
    (hpass : Certificate.allPass smallFactors certificates = true) {n : Nat} (h : n ∈ certificates.map Certificate.number) :
    n.Prime := by
  obtain ⟨c, hc, rfl⟩ := List.mem_map.mp h
  exact Certificate.prime_of_allPass prime_of_mem_smallFactors hpass c hc

end PrimeAux

open PrimeAux

/-- The modulus 2^256 - 2^32 - 977 is prime. -/
theorem prime_prime : Nat.Prime prime :=
  prime_of_certificates modulusCertificates (by decide +kernel) (by decide +kernel)

/-- The order of the base point is prime. -/
theorem prime_order : Nat.Prime order :=
  prime_of_certificates orderCertificates (by decide +kernel) (by decide +kernel)

instance : Fact prime.Prime := ⟨prime_prime⟩

instance : Fact order.Prime := ⟨prime_order⟩

end ScriptCircuit.Curve
