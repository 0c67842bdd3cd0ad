import ScriptCircuit.Field.Basic

/-!
# Word arithmetic is arithmetic modulo the order

Every operation on words, read through `toNat`, is the operation on canonical values followed by one remainder: the carries
and borrows of `add`, `sub` and `neg` and the folding of a two-word product lose nothing.
-/

namespace ScriptCircuit.Felt

theorem toNat_fieldOrder : fieldOrder.toNat = 18446744069414584321 := rfl

theorem toNat_lt (a : Felt) : a.toNat < 18446744069414584321 :=
  UInt64.lt_iff_toNat_lt.mp a.val_lt

/-- Elements with the same word are equal. -/
theorem ext_val {a b : Felt} (h : a.val = b.val) : a = b := by
  cases a
  cases b
  cases h
  rfl

/-- Elements with the same number are equal. -/
theorem ext_toNat {a b : Felt} (h : a.toNat = b.toNat) : a = b :=
  ext_val (UInt64.toNat_inj.mp h)

/-- A word is reduced modulo the order. -/
theorem toNat_ofWord (x : UInt64) : (ofWord x).toNat = x.toNat % 18446744069414584321 := by
  simp only [ofWord, toNat, UInt64.toNat_mod, toNat_fieldOrder]

/-- A number is reduced modulo the order. -/
theorem toNat_ofNat (n : Nat) : (ofNat n).toNat = n % 18446744069414584321 := by
  simp only [ofNat, toNat_ofWord, toNat_fieldOrder, UInt64.toNat_ofNat']
  omega

/-- Addition with one correction is addition modulo the order. -/
theorem toNat_add (a b : Felt) : (a + b).toNat = (a.toNat + b.toNat) % 18446744069414584321 := by
  have ha := a.toNat_lt
  have hb := b.toNat_lt
  change (ofWord _).toNat = _
  simp only [toNat_ofWord]
  simp only [toNat] at *
  split <;> simp only [UInt64.lt_iff_toNat_lt, UInt64.le_iff_toNat_le, UInt64.toNat_add, UInt64.toNat_sub,
    toNat_fieldOrder] at * <;> omega

/-- Subtraction with one correction is subtraction modulo the order. -/
theorem toNat_sub (a b : Felt) :
    (a - b).toNat = (a.toNat + (18446744069414584321 - b.toNat)) % 18446744069414584321 := by
  have ha := a.toNat_lt
  have hb := b.toNat_lt
  change (ofWord _).toNat = _
  simp only [toNat_ofWord]
  simp only [toNat] at *
  split <;> simp only [UInt64.lt_iff_toNat_lt, UInt64.toNat_add, UInt64.toNat_sub, toNat_fieldOrder] at * <;> omega

/-- Negation is taken modulo the order. -/
theorem toNat_neg (a : Felt) : (-a).toNat = (18446744069414584321 - a.toNat) % 18446744069414584321 := by
  have ha := a.toNat_lt
  change (neg a).toNat = _
  unfold neg
  split
  · rename_i h
    simp [toNat, h]
  · simp only [toNat_ofWord]
    simp only [toNat] at *
    simp only [UInt64.toNat_sub, toNat_fieldOrder] at *
    omega

/-- Multiplication of two halves of 32 bits leaves room for two more halves in a word. -/
theorem mul_half_le {x y : Nat} (hx : x < 4294967296) (hy : y < 4294967296) : x * y ≤ 18446744065119617025 :=
  calc x * y ≤ 4294967295 * 4294967295 := Nat.mul_le_mul (by omega) (by omega)
    _ = 18446744065119617025 := by decide

/-- The upper word and the wrapped product are the two words of the product. -/
theorem upperWord_spec (a b : UInt64) :
    (upperWord a b).toNat * 18446744073709551616 + (a * b).toNat = a.toNat * b.toNat := by
  have hw : ((4294967296 : UInt64)).toNat = 4294967296 := rfl
  simp only [upperWord, UInt64.toNat_add, UInt64.toNat_mul, UInt64.toNat_div, UInt64.toNat_mod, hw]
  have hab : a.toNat * b.toNat = (a.toNat / 4294967296 * (b.toNat / 4294967296)) * 18446744073709551616 +
      (a.toNat / 4294967296 * (b.toNat % 4294967296) + a.toNat % 4294967296 * (b.toNat / 4294967296)) * 4294967296 +
      a.toNat % 4294967296 * (b.toNat % 4294967296) := by
    have h1 := Nat.div_add_mod a.toNat 4294967296
    have h2 := Nat.div_add_mod b.toNat 4294967296
    generalize a.toNat / 4294967296 = a1 at *
    generalize a.toNat % 4294967296 = a0 at *
    generalize b.toNat / 4294967296 = b1 at *
    generalize b.toNat % 4294967296 = b0 at *
    rw [← h1, ← h2]
    grind
  have ha := a.toNat_lt
  have hb := b.toNat_lt
  have h00 := mul_half_le (x := a.toNat % 4294967296) (y := b.toNat % 4294967296) (by omega) (by omega)
  have h01 := mul_half_le (x := a.toNat % 4294967296) (y := b.toNat / 4294967296) (by omega) (by omega)
  have h10 := mul_half_le (x := a.toNat / 4294967296) (y := b.toNat % 4294967296) (by omega) (by omega)
  have h11 := mul_half_le (x := a.toNat / 4294967296) (y := b.toNat / 4294967296) (by omega) (by omega)
  rw [hab]
  generalize a.toNat % 4294967296 * (b.toNat % 4294967296) = p00 at *
  generalize a.toNat % 4294967296 * (b.toNat / 4294967296) = p01 at *
  generalize a.toNat / 4294967296 * (b.toNat % 4294967296) = p10 at *
  generalize a.toNat / 4294967296 * (b.toNat / 4294967296) = p11 at *
  omega

/-- The first correction: a borrow is paid back with 2^32 - 1. -/
theorem toNat_low (lower top : UInt64) (h : top.toNat < 4294967296) :
    (if lower < top then lower - top - 4294967295 else lower - top).toNat =
      if lower.toNat < top.toNat then lower.toNat + 18446744069414584321 - top.toNat else lower.toNat - top.toNat := by
  have he : ((4294967295 : UInt64)).toNat = 4294967295 := rfl
  have hl := lower.toNat_lt
  split <;> split <;> simp only [UInt64.lt_iff_toNat_lt, UInt64.toNat_sub, he] at * <;> omega

/-- The second correction: a carry is paid with 2^32 - 1. -/
theorem toNat_folded (low middle : UInt64) (h : middle.toNat ≤ 18446744065119617025) :
    (if low + middle < low then low + middle + 4294967295 else low + middle).toNat % 18446744069414584321 =
      (low.toNat + middle.toNat) % 18446744069414584321 := by
  have he : ((4294967295 : UInt64)).toNat = 4294967295 := rfl
  have hl := low.toNat_lt
  split <;> simp only [UInt64.lt_iff_toNat_lt, UInt64.toNat_add, he] at * <;> omega

/-- Folding keeps the value modulo the order. -/
theorem toNat_ofWords (upper lower : UInt64) :
    (ofWords upper lower).toNat = (upper.toNat * 18446744073709551616 + lower.toNat) % 18446744069414584321 := by
  have hw : ((4294967296 : UInt64)).toNat = 4294967296 := rfl
  have he : ((4294967295 : UInt64)).toNat = 4294967295 := rfl
  have hu := upper.toNat_lt
  have hl := lower.toNat_lt
  have ht : (upper / 4294967296).toNat < 4294967296 := by
    simp only [UInt64.toNat_div, hw]
    omega
  have hm : (upper % 4294967296 * 4294967295).toNat = upper.toNat % 4294967296 * 4294967295 := by
    simp only [UInt64.toNat_mul, UInt64.toNat_mod, hw, he]
    omega
  simp only [ofWords, toNat_ofWord]
  rw [toNat_folded _ _ (by omega), toNat_low _ _ ht, hm]
  simp only [UInt64.toNat_div, hw] at *
  split
  · rw [show upper.toNat * 18446744073709551616 + lower.toNat =
      lower.toNat + 18446744069414584321 - upper.toNat / 4294967296 + upper.toNat % 4294967296 * 4294967295 +
        18446744069414584321 * (upper.toNat + upper.toNat / 4294967296 - 1) by omega, Nat.add_mul_mod_self_left]
  · rw [show upper.toNat * 18446744073709551616 + lower.toNat =
      lower.toNat - upper.toNat / 4294967296 + upper.toNat % 4294967296 * 4294967295 +
        18446744069414584321 * (upper.toNat + upper.toNat / 4294967296) by omega, Nat.add_mul_mod_self_left]

/-- The folded product is the product modulo the order. -/
theorem toNat_mul (a b : Felt) : (a * b).toNat = a.toNat * b.toNat % 18446744069414584321 := by
  change (ofWords _ _).toNat = _
  rw [toNat_ofWords, upperWord_spec]
  rfl

end ScriptCircuit.Felt
