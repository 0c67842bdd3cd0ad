import Mathlib
import ScriptCircuit.Proofs.Curve.Residue

/-!
# Primes with certificates

Lucas's test: a number is prime when a witness has a power of one with the number's predecessor, and with no quotient of the
predecessor by one of its prime factors. A certificate is a witness with the factors of the predecessor, and a list of
certificates passes when every factor is known to be prime or certified before it. The order of the field less one is 2^32
times the first five Fermat primes, and 7 is its witness.
-/

namespace ScriptCircuit

open Residue

/-- A witness for Lucas's test, and the factors of the number's predecessor with their multiplicities. -/
structure Certificate where
  witness : Nat
  factors : List (Nat × Nat)

namespace Certificate

/-- The number whose predecessor has the factors. -/
def number (c : Certificate) : Nat :=
  (c.factors.map fun factor => factor.1 ^ factor.2).prod + 1

instance (c : Certificate) : NeZero c.number :=
  ⟨Nat.succ_ne_zero _⟩

/-- The power of the witness modulo the number. -/
def power (c : Certificate) (exponent : Nat) : Fin c.number :=
  pow (.ofNat c.number c.witness) exponent

/-- Lucas's test, where the factors have to be known primes. -/
def passes (c : Certificate) (known : List Nat) : Bool :=
  decide (c.number ≤ 2 ^ 256) && c.power (c.number - 1) == .ofNat c.number 1 &&
    c.factors.all fun factor => known.contains factor.1 && c.power ((c.number - 1) / factor.1) != .ofNat c.number 1

/-- A list of certificates, each of which may use the numbers before it. -/
def allPass (known : List Nat) : List Certificate → Bool
  | [] => true
  | c :: rest => c.passes known && allPass (c.number :: known) rest

variable {c : Certificate}

/-- The power is the one among the residue classes. -/
theorem power_eq_ofNat_one {exponent : Nat} (h : exponent < 2 ^ 256) :
    c.power exponent = .ofNat c.number 1 ↔ (c.witness : ZMod c.number) ^ exponent = 1 := by
  rw [← toZMod_inj, power, toZMod_pow _ h, toZMod_ofNat, toZMod_ofNat, Nat.cast_one]

/-- A prime factor of the predecessor is one of the factors, when these are prime. -/
theorem mem_factors_of_dvd (hprime : ∀ factor ∈ c.factors, factor.1.Prime) {q : Nat} (hq : q.Prime) (h : q ∣ c.number - 1) :
    ∃ factor ∈ c.factors, factor.1 = q := by
  obtain ⟨power, hmem, hpower⟩ := (Prime.dvd_prod_iff hq.prime).mp h
  obtain ⟨factor, hfactor, rfl⟩ := List.mem_map.mp hmem
  exact ⟨factor, hfactor, ((Nat.prime_dvd_prime_iff_eq hq (hprime factor hfactor)).mp (hq.dvd_of_dvd_pow hpower)).symm⟩

/-- A number that passes the test is prime. -/
theorem prime_of_passes {known : List Nat} (hknown : ∀ p ∈ known, p.Prime) (h : c.passes known = true) : c.number.Prime := by
  simp only [passes, Bool.and_eq_true, decide_eq_true_eq, beq_iff_eq, List.all_eq_true, bne_iff_ne, ne_eq,
    List.contains_iff_mem] at h
  obtain ⟨⟨hbits, hfull⟩, hfactors⟩ := h
  have hlt : c.number - 1 < 2 ^ 256 := Nat.lt_of_lt_of_le (Nat.sub_one_lt (NeZero.ne _)) hbits
  refine lucas_primality c.number (c.witness : ZMod c.number) ((power_eq_ofNat_one hlt).mp hfull) fun q hq hdvd => ?_
  obtain ⟨factor, hfactor, rfl⟩ := mem_factors_of_dvd (fun factor hfactor => hknown _ (hfactors factor hfactor).1) hq hdvd
  exact mt (power_eq_ofNat_one (Nat.lt_of_le_of_lt (Nat.div_le_self _ _) hlt)).mpr (hfactors factor hfactor).2

/-- All numbers of a list of certificates that passes are prime. -/
theorem prime_of_allPass {known : List Nat} {certificates : List Certificate} (hknown : ∀ p ∈ known, p.Prime)
    (h : allPass known certificates = true) : ∀ c ∈ certificates, c.number.Prime := by
  induction certificates generalizing known with
  | nil => exact fun _ hc => absurd hc List.not_mem_nil
  | cons first rest ih =>
    obtain ⟨hfirst, hrest⟩ := Bool.and_eq_true_iff.mp h
    have hprime : first.number.Prime := prime_of_passes hknown hfirst
    exact List.forall_mem_cons.mpr ⟨hprime, ih (List.forall_mem_cons.mpr ⟨hprime, hknown⟩) hrest⟩

end Certificate

/-- The order 2^64 - 2^32 + 1 is prime. -/
theorem prime_order : Nat.Prime 18446744069414584321 := by
  have hsmall : ∀ p ∈ [2, 3, 5, 17, 257, 65537], Nat.Prime p := by norm_num
  have hpasses : Certificate.passes ⟨7, [(2, 32), (3, 1), (5, 1), (17, 1), (257, 1), (65537, 1)]⟩ [2, 3, 5, 17, 257, 65537] = true := by
    decide +kernel
  exact Certificate.prime_of_passes hsmall hpasses

end ScriptCircuit
