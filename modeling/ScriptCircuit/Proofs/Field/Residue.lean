import Mathlib
import ScriptCircuit.Field.Inverse
import ScriptCircuit.Proofs.Field.Algebra

/-!
# Results are canonical values of residue classes

The value of a result is the canonical representative of what the same operation gives on the classes of the words. Inverses
and quotients are refused for zero only.
-/

namespace ScriptCircuit.Felt

/-- The value of an element is the canonical representative of its class. -/
theorem toNat_eq_val (a : Felt) : a.toNat = a.toZMod.val :=
  (ZMod.val_natCast_of_lt a.toNat_lt).symm

/-- A word goes to its residue. -/
theorem toZMod_ofWord (x : UInt64) : (ofWord x).toZMod = x.toNat :=
  toZMod_eq_of_toNat (toNat_ofWord x)

/-- A power computed bit by bit goes to the power of the residue. -/
theorem toZMod_pow (a : Felt) (exponent : UInt64) : (a.pow exponent).toZMod = a.toZMod ^ exponent.toNat := by
  rw [pow_eq, toZMod_npow]

/-- The computed inverse goes to the inverse of the residue. -/
theorem toZMod_inv (a : Felt) : a.inv.toZMod = a.toZMod⁻¹ := by
  by_cases h : a = 0
  · rw [h, inv_zero, toZMod_zero, ZMod.inv_zero]
  · refine eq_inv_of_mul_eq_one_right ?_
    rw [← toZMod_mul, mul_inv h, toZMod_one]

/-- The inverse is refused for zero and given otherwise. -/
theorem inverse_eq (a : Felt) : a.inverse = if a = 0 then .error .zeroInverse else .ok a.inv :=
  rfl

/-- A quotient is the product with the inverse, and refused where that is. -/
theorem div_eq (a b : Felt) : b.div a = if a = 0 then .error .zeroInverse else .ok (b * a.inv) := by
  rw [div, inverse_eq]
  split <;> rfl

/-- The elements of words are added, subtracted, negated, multiplied, raised to a power and inverted as the residue classes of
the words are, and every value is canonical. Zero, whose inverse counts as zero where one is asked for in any case, is
otherwise refused as an element to invert or divide by; any other one has an inverse. -/
theorem toNat_operations (x y exponent : UInt64) :
    let a := ofWord x
    let b := ofWord y
    let u : ZMod 18446744069414584321 := x.toNat
    let v : ZMod 18446744069414584321 := y.toNat
    a.toNat = u.val ∧ (a + b).toNat = (u + v).val ∧ (a - b).toNat = (u - v).val ∧ (a * b).toNat = (u * v).val ∧
      (-a).toNat = (-u).val ∧ (a.pow exponent).toNat = (u ^ exponent.toNat).val ∧ a.inv.toNat = (u⁻¹).val ∧
      (if a = 0 then ∃ e, a.inverse = .error e ∧ e.category = .domain
        else ∃ c, a.inverse = .ok c ∧ c.toNat = (u⁻¹).val ∧ a * c = 1) ∧
      if a = 0 then ∃ e, b.div a = .error e ∧ e.category = .domain
        else ∃ c, b.div a = .ok c ∧ c.toNat = (v / u).val := by
  intro a b u v
  have hu : a.toZMod = u := toZMod_ofWord x
  have hv : b.toZMod = v := toZMod_ofWord y
  refine ⟨?_, ?_, ?_, ?_, ?_, ?_, ?_, ?_, ?_⟩
  · rw [toNat_eq_val, hu]
  · rw [toNat_eq_val, toZMod_add, hu, hv]
  · rw [toNat_eq_val, toZMod_sub, hu, hv]
  · rw [toNat_eq_val, toZMod_mul, hu, hv]
  · rw [toNat_eq_val, toZMod_neg, hu]
  · rw [toNat_eq_val, toZMod_pow, hu]
  · rw [toNat_eq_val, toZMod_inv, hu]
  · rw [inverse_eq]
    split
    next => exact ⟨_, rfl, rfl⟩
    next hne => exact ⟨a.inv, rfl, by rw [toNat_eq_val, toZMod_inv, hu], mul_inv hne⟩
  · rw [div_eq]
    split
    next => exact ⟨_, rfl, rfl⟩
    next hne => exact ⟨b * a.inv, rfl, by rw [toNat_eq_val, toZMod_mul, toZMod_inv, hu, hv, div_eq_mul_inv]⟩

end ScriptCircuit.Felt
