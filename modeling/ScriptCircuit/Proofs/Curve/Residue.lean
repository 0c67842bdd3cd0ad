import Mathlib
import ScriptCircuit.Curve.Residue

/-!
# Residues as residue classes

The arithmetic of residues is that of the ring of residue classes, where square and multiply computes powers. For a prime
modulus the power by Fermat is the inverse, and for one that is three modulo four squares have roots among the powers.
-/

namespace ScriptCircuit.Residue

variable {n : Nat}

/-- The class of a residue. -/
def toZMod (a : Fin n) : ZMod n :=
  (a.val : ZMod n)

/-- The number of a residue is cast to it. -/
theorem natCast_val (a : Fin n) : (a.val : ZMod n) = toZMod a :=
  rfl

/-- Residues that go to one are equal. -/
theorem toZMod_injective : Function.Injective (toZMod : Fin n → ZMod n) := by
  intro a b h
  have hval := (ZMod.natCast_eq_natCast_iff' _ _ _).mp h
  rw [Nat.mod_eq_of_lt a.isLt, Nat.mod_eq_of_lt b.isLt] at hval
  exact Fin.ext hval

/-- Residues are equal when they go to one. -/
theorem toZMod_inj {a b : Fin n} : toZMod a = toZMod b ↔ a = b :=
  toZMod_injective.eq_iff

/-- A residue is the canonical representative of its class. -/
theorem val_toZMod (a : Fin n) : (toZMod a).val = a.val :=
  ZMod.val_natCast_of_lt a.isLt

/-- Products go to products. -/
theorem toZMod_mul (a b : Fin n) : toZMod (a * b) = toZMod a * toZMod b := by
  rw [toZMod, Fin.val_mul, ZMod.natCast_mod, Nat.cast_mul, toZMod, toZMod]

/-- Sums go to sums. -/
theorem toZMod_add (a b : Fin n) : toZMod (a + b) = toZMod a + toZMod b := by
  rw [toZMod, Fin.val_add, ZMod.natCast_mod, Nat.cast_add, toZMod, toZMod]

/-- Differences go to differences. -/
theorem toZMod_sub (a b : Fin n) : toZMod (a - b) = toZMod a - toZMod b := by
  rw [toZMod, Fin.val_sub, ZMod.natCast_mod, Nat.cast_add, Nat.cast_sub b.isLt.le, ZMod.natCast_self, zero_sub, toZMod, toZMod,
    neg_add_eq_sub]

/-- Negations go to negations. -/
theorem toZMod_neg (a : Fin n) : toZMod (-a) = -toZMod a := by
  rw [toZMod, Fin.val_neg', ZMod.natCast_mod, Nat.cast_sub a.isLt.le, ZMod.natCast_self, zero_sub, toZMod]

/-- A number goes to its residue. -/
theorem toZMod_ofNat [NeZero n] (k : Nat) : toZMod (Fin.ofNat n k) = (k : ZMod n) := by
  rw [toZMod, Fin.val_ofNat, ZMod.natCast_mod]

/-- Only zero goes to zero. -/
theorem toZMod_eq_zero [NeZero n] {a : Fin n} : toZMod a = 0 ↔ a = 0 := by
  have hzero : toZMod (0 : Fin n) = 0 := by rw [toZMod, Fin.val_zero, Nat.cast_zero]
  rw [← toZMod_inj, hzero]

/-- The residue of one goes to one. -/
theorem toZMod_one (a : Fin n) : toZMod (one a) = 1 := by
  rw [toZMod, one, ZMod.natCast_mod, Nat.cast_one]

/-- Square and multiply over enough bits computes the power. -/
theorem toZMod_powRounds {rounds exponent : Nat} (acc base : Fin n) (h : exponent < 2 ^ rounds) :
    toZMod (powRounds rounds acc base exponent) = toZMod acc * toZMod base ^ exponent := by
  induction rounds generalizing acc base exponent with
  | zero =>
    obtain rfl : exponent = 0 := Nat.lt_one_iff.mp h
    rw [powRounds, pow_zero, mul_one]
  | succ rounds ih =>
    have hhalf : exponent / 2 < 2 ^ rounds := by
      rw [pow_succ] at h
      omega
    have hsplit : toZMod base ^ exponent = toZMod base ^ (exponent % 2) * (toZMod base * toZMod base) ^ (exponent / 2) := by
      rw [← pow_two, ← pow_mul, ← pow_add, Nat.mod_add_div]
    rw [powRounds, ih _ _ hhalf, toZMod_mul, hsplit, ← mul_assoc]
    congr 1
    obtain hbit | hbit := Nat.mod_two_eq_zero_or_one exponent
    · rw [hbit, if_neg (by decide), pow_zero, mul_one]
    · rw [hbit, if_pos rfl, toZMod_mul, pow_one]

/-- A power computed bit by bit, for exponents of up to 256 bits, goes to the power. -/
theorem toZMod_pow {exponent : Nat} (base : Fin n) (h : exponent < 2 ^ 256) :
    toZMod (pow base exponent) = toZMod base ^ exponent := by
  rw [pow, toZMod_powRounds _ _ h, toZMod_one, one_mul]

/-- For a prime modulus below 2^256 the power by Fermat is the inverse. -/
theorem toZMod_inv [Fact n.Prime] (htwo : 2 < n) (hn : n < 2 ^ 256) (a : Fin n) : toZMod (inv a) = (toZMod a)⁻¹ := by
  rw [inv, toZMod_pow a (by omega)]
  by_cases h : toZMod a = 0
  · rw [h, zero_pow (by omega), inv_zero]
  · refine eq_inv_of_mul_eq_one_left ?_
    have hexponent : n - 2 + 1 = n - 1 := by omega
    rw [← pow_succ, hexponent, ZMod.pow_card_sub_one_eq_one h]

/-- For a prime modulus that is three modulo four, the power `(n + 1) / 4` of a square is a root of it: its square is the
power `n + 1` of any root. -/
theorem toZMod_sqrt [Fact n.Prime] (hfour : n % 4 = 3) (hn : n < 2 ^ 256) {a : Fin n} (h : IsSquare (toZMod a)) :
    toZMod (sqrt a) ^ 2 = toZMod a := by
  obtain ⟨root, hroot⟩ := h
  have hexponent : 2 * ((n + 1) / 4 * 2) = n + 1 := by omega
  rw [sqrt, toZMod_pow a (by omega), hroot, ← pow_two, ← pow_mul, ← pow_mul, hexponent, pow_succ, ZMod.pow_card, pow_two]

end ScriptCircuit.Residue
