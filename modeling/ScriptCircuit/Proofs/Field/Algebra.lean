import Mathlib
import ScriptCircuit.Field.Lemmas
import ScriptCircuit.Proofs.Field.Prime

/-!
# The elements form a field

The word operations are carried over to the residues modulo the prime order, so the elements are a field: the laws come
from there, and the power by Fermat is the inverse. A number below the order is recovered from its element.
-/

namespace ScriptCircuit.Felt

/-- The residue of an element. -/
def toZMod (a : Felt) : ZMod 18446744069414584321 :=
  a.toNat

instance : Fact (Nat.Prime 18446744069414584321) := ⟨prime_order⟩

/-- Elements with the same residue are equal. -/
theorem toZMod_injective : Function.Injective toZMod := by
  intro a b h
  apply ext_toNat
  rw [toZMod, toZMod, ZMod.natCast_eq_natCast_iff', Nat.mod_eq_of_lt a.toNat_lt, Nat.mod_eq_of_lt b.toNat_lt] at h
  exact h

/-- An element whose value is a number modulo the order has the residue of the number. -/
theorem toZMod_eq_of_toNat {a : Felt} {n : Nat} (h : a.toNat = n % 18446744069414584321) : a.toZMod = n := by
  rw [toZMod, h, ZMod.natCast_mod]

theorem toZMod_zero : (0 : Felt).toZMod = 0 := by
  rw [toZMod_eq_of_toNat (n := 0) rfl, Nat.cast_zero]

theorem toZMod_one : (1 : Felt).toZMod = 1 := by
  rw [toZMod_eq_of_toNat (n := 1) rfl, Nat.cast_one]

theorem toZMod_add (a b : Felt) : (a + b).toZMod = a.toZMod + b.toZMod := by
  rw [toZMod_eq_of_toNat (toNat_add a b), Nat.cast_add, toZMod, toZMod]

theorem toZMod_mul (a b : Felt) : (a * b).toZMod = a.toZMod * b.toZMod := by
  rw [toZMod_eq_of_toNat (toNat_mul a b), Nat.cast_mul, toZMod, toZMod]

/-- Negations go to negations. -/
theorem toZMod_neg (a : Felt) : (-a).toZMod = -a.toZMod := by
  rw [toZMod_eq_of_toNat (toNat_neg a), Nat.cast_sub (Nat.le_of_lt a.toNat_lt), ZMod.natCast_self, zero_sub, toZMod]

/-- Differences go to differences. -/
theorem toZMod_sub (a b : Felt) : (a - b).toZMod = a.toZMod - b.toZMod := by
  rw [toZMod_eq_of_toNat (toNat_sub a b), Nat.cast_add, Nat.cast_sub (Nat.le_of_lt b.toNat_lt), ZMod.natCast_self,
    zero_sub, ← sub_eq_add_neg, toZMod, toZMod]

/-- A number goes to its residue. -/
theorem toZMod_ofNat (n : Nat) : (ofNat n).toZMod = n :=
  toZMod_eq_of_toNat (toNat_ofNat n)

/-- An integer goes to its residue. -/
theorem toZMod_ofInt (n : Int) : (ofInt n).toZMod = n := by
  have hpos : 0 ≤ n % 18446744069414584321 := Int.emod_nonneg n (by decide)
  rw [ofInt, toZMod_ofNat, toNat_fieldOrder]
  calc (((n % 18446744069414584321).toNat : Nat) : ZMod 18446744069414584321)
      = (((n % 18446744069414584321).toNat : Int) : ZMod 18446744069414584321) := (Int.cast_natCast _).symm
    _ = ((n % (18446744069414584321 : Nat) : Int) : ZMod 18446744069414584321) := by
        rw [Int.toNat_of_nonneg hpos, Nat.cast_ofNat]
    _ = n := ZMod.intCast_mod n _

instance : IntCast Felt := ⟨ofInt⟩
instance : SMul Nat Felt := ⟨fun n a => ofNat n * a⟩
instance : SMul Int Felt := ⟨fun n a => ofInt n * a⟩
instance : Pow Felt Nat := ⟨fun a n => npowRec n a⟩

/-- Multiples go to multiples. -/
theorem toZMod_nsmul (n : Nat) (a : Felt) : (n • a).toZMod = n • a.toZMod := by
  change (ofNat n * a).toZMod = _
  rw [toZMod_mul, toZMod_ofNat, nsmul_eq_mul]

/-- Integer multiples go to integer multiples. -/
theorem toZMod_zsmul (n : Int) (a : Felt) : (n • a).toZMod = n • a.toZMod := by
  change (ofInt n * a).toZMod = _
  rw [toZMod_mul, toZMod_ofInt, zsmul_eq_mul]

/-- Powers go to powers. -/
theorem toZMod_npow (a : Felt) (n : Nat) : (a ^ n).toZMod = a.toZMod ^ n := by
  induction n with
  | zero => exact toZMod_one
  | succ n ih =>
    change (a ^ n * a).toZMod = _
    rw [toZMod_mul, ih, pow_succ]

instance : CommRing Felt :=
  toZMod_injective.commRing toZMod toZMod_zero toZMod_one toZMod_add toZMod_mul toZMod_neg toZMod_sub
    (fun n a => toZMod_nsmul n a) (fun n a => toZMod_zsmul n a) toZMod_npow toZMod_ofNat toZMod_ofInt

/-- Square and multiply multiplies by the power with the lowest bits of the exponent. -/
theorem powRounds_eq (rounds : Nat) (acc base : Felt) (exponent : UInt64) :
    powRounds rounds acc base exponent = acc * base ^ (exponent.toNat % 2 ^ rounds) := by
  induction rounds generalizing acc base exponent with
  | zero => simp [powRounds, Nat.mod_one]
  | succ rounds ih =>
    have htwo : (2 : UInt64).toNat = 2 := rfl
    have hodd : exponent % 2 = 1 ↔ exponent.toNat % 2 = 1 := by
      rw [← UInt64.toNat_inj, UInt64.toNat_mod, htwo]
      rfl
    have hsplit : exponent.toNat % 2 ^ (rounds + 1) = 2 * (exponent.toNat / 2 % 2 ^ rounds) + exponent.toNat % 2 := by
      rw [pow_succ', Nat.mod_mul, Nat.add_comm]
    rw [powRounds, ih, UInt64.toNat_div, htwo, hsplit, pow_add, pow_mul, pow_two]
    by_cases h : exponent.toNat % 2 = 1
    · rw [if_pos (hodd.mpr h), h, pow_one]
      ring
    · rw [if_neg (fun h' => h (hodd.mp h')), show exponent.toNat % 2 = 0 by omega, pow_zero, mul_one]

/-- The word power is the power. -/
theorem pow_eq (a : Felt) (exponent : UInt64) : a.pow exponent = a ^ exponent.toNat := by
  rw [pow, powRounds_eq, one_mul, Nat.mod_eq_of_lt exponent.toNat_lt]

/-- The inverse is the power by the order less two. -/
theorem inv_eq_pow (a : Felt) : a.inv = a ^ 18446744069414584319 :=
  pow_eq a _

/-- The power that inverts leaves zero at zero. -/
theorem inv_zero : (0 : Felt).inv = 0 := by
  rw [inv_eq_pow, zero_pow (by decide)]

/-- The power by Fermat is the inverse. -/
theorem mul_inv {a : Felt} (h : a ≠ 0) : a * a.inv = 1 := by
  apply toZMod_injective
  have hne : a.toZMod ≠ 0 := by
    rw [← toZMod_zero]
    exact toZMod_injective.ne h
  rw [inv_eq_pow, ← pow_succ', toZMod_npow, toZMod_one]
  exact ZMod.pow_card_sub_one_eq_one hne

instance : Inv Felt := ⟨inv⟩

-- The laws of negative powers hold by unfolding them, but not by unfolding the inverse.
attribute [local irreducible] inv

instance : Field Felt where
  exists_pair_ne := ⟨0, 1, by decide⟩
  mul_inv_cancel _ h := mul_inv h
  inv_zero := inv_zero
  nnqsmul := _
  nnqsmul_def _ _ := rfl
  qsmul := _
  qsmul_def _ _ := rfl

/-- The computed inverse is the inverse of the field. -/
@[simp] theorem inv_eq (a : Felt) : a.inv = a⁻¹ :=
  rfl

/-- The element of a number is the number in the field. -/
@[simp] theorem ofNat_eq (n : Nat) : ofNat n = (n : Felt) :=
  rfl

/-- The element of a byte is the byte in the field. -/
@[simp] theorem ofByte_eq (b : UInt8) : ofByte b = (b.toNat : Felt) := by
  have hb := b.toNat_lt
  apply ext_toNat
  rw [ofByte, toNat_ofWord, UInt8.toNat_toUInt64]
  exact (toNat_ofNat b.toNat).symm

/-- A number is reduced modulo the order. -/
theorem toNat_natCast (n : Nat) : (n : Felt).toNat = n % 18446744069414584321 :=
  toNat_ofNat n

/-- A number below the order is kept. -/
theorem toNat_natCast_of_lt {n : Nat} (h : n < 18446744069414584321) : (n : Felt).toNat = n := by
  rw [toNat_natCast, Nat.mod_eq_of_lt h]

/-- An element is the element of its value. -/
theorem natCast_toNat (a : Felt) : (a.toNat : Felt) = a :=
  ext_toNat (toNat_natCast_of_lt a.toNat_lt)

/-- Numbers below the order are told apart by their elements. -/
theorem natCast_inj {m n : Nat} (hm : m < 18446744069414584321) (hn : n < 18446744069414584321) :
    (m : Felt) = n ↔ m = n := by
  constructor
  · intro h
    rw [← toNat_natCast_of_lt hm, ← toNat_natCast_of_lt hn, h]
  · intro h
    rw [h]

/-- Among the numbers below the order only zero is zero. -/
theorem natCast_eq_zero {n : Nat} (h : n < 18446744069414584321) : (n : Felt) = 0 ↔ n = 0 := by
  rw [← Nat.cast_zero, natCast_inj h (by decide)]

/-- Among the numbers below the order only one is one. -/
theorem natCast_eq_one {n : Nat} (h : n < 18446744069414584321) : (n : Felt) = 1 ↔ n = 1 := by
  rw [← Nat.cast_one, natCast_inj h (by decide)]

/-- Adding one does not wrap around unless it ends in zero. -/
theorem toNat_add_one {a : Felt} (h : a + 1 ≠ 0) : (a + 1).toNat = a.toNat + 1 := by
  have hlt := a.toNat_lt
  have hcast : a + 1 = ((a.toNat + 1 : Nat) : Felt) := by rw [Nat.cast_succ, natCast_toNat]
  rw [hcast]
  refine toNat_natCast_of_lt (Nat.lt_of_le_of_ne hlt fun hwrap => h ?_)
  rw [hcast, hwrap]
  rfl

/-- Bytes are told apart by their elements. -/
theorem ofByte_inj {a b : UInt8} : ofByte a = ofByte b ↔ a = b := by
  have ha := a.toNat_lt
  have hb := b.toNat_lt
  rw [ofByte_eq, ofByte_eq, natCast_inj (by omega) (by omega), UInt8.toNat_inj]

end ScriptCircuit.Felt
