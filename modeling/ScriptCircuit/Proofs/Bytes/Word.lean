import Mathlib
import ScriptCircuit.Bytes.Word

/-!
# Words and their digits

A number with the bytes of a list for digits, the least significant one first, has these bytes. Cut into blocks of one
length, the list gives the same number with the numbers of the blocks for digits. The limbs of a word make up its number, and
their bytes, limb after limb, are its bytes.
-/

namespace ScriptCircuit

namespace WordAux

/-- Bytes are digits to the base 256. -/
theorem bytes_lt (bytes : List UInt8) : ∀ digit ∈ bytes.map UInt8.toNat, digit < 256 := by
  intro digit hdigit
  obtain ⟨byte, -, rfl⟩ := List.mem_map.mp hdigit
  exact byte.toNat_lt

/-- The number with some bytes for digits. -/
theorem ofDigits_lt (bytes : List UInt8) : Nat.ofDigits 256 (bytes.map UInt8.toNat) < 256 ^ bytes.length := by
  have hlt := Nat.ofDigits_lt_base_pow_length (by decide) (bytes_lt bytes)
  rw [List.length_map] at hlt
  exact hlt

/-- A digit is read back from the number. -/
theorem ofDigits_shiftRight {bytes : List UInt8} {i : Nat} {byte : UInt8} (h : bytes[i]? = some byte) :
    UInt8.ofNat (Nat.ofDigits 256 (bytes.map UInt8.toNat) >>> (8 * i)) = byte := by
  obtain ⟨hi, rfl⟩ := List.getElem?_eq_some_iff.mp h
  have hpow : 2 ^ (8 * i) = 256 ^ i := Nat.pow_mul 2 8 i
  rw [Nat.shiftRight_eq_div_pow, hpow, Nat.ofDigits_div_pow_eq_ofDigits_drop i (by decide) _ (bytes_lt bytes), ← List.map_drop,
    List.drop_eq_getElem_cons hi, List.map_cons, Nat.ofDigits_cons, ← UInt8.toNat_inj, UInt8.toNat_ofNat']
  have hlt := bytes[i].toNat_lt
  omega

/-- The digits of a number in blocks of one length are the digits of the number to the power of the base. -/
theorem ofDigits_flatten (base : Nat) {length : Nat} {blocks : List (List Nat)} (h : ∀ block ∈ blocks, block.length = length) :
    Nat.ofDigits base blocks.flatten = Nat.ofDigits (base ^ length) (blocks.map (Nat.ofDigits base)) := by
  induction blocks with
  | nil => rfl
  | cons block blocks ih =>
    rw [List.forall_mem_cons] at h
    rw [List.flatten_cons, Nat.ofDigits_append, ih h.2, h.1, List.map_cons, Nat.ofDigits_cons]

/-- An entry of a block, in a list of blocks of one length. -/
theorem getElem?_flatten {α : Type} {length : Nat} {blocks : List (List α)} (h : ∀ block ∈ blocks, block.length = length)
    {k j : Nat} (hk : k < blocks.length) (hj : j < length) : blocks.flatten[k * length + j]? = blocks[k][j]? := by
  induction blocks generalizing k with
  | nil => cases hk
  | cons block blocks ih =>
    rw [List.forall_mem_cons] at h
    rw [List.flatten_cons]
    cases k with
    | zero =>
      rw [Nat.zero_mul, Nat.zero_add, List.getElem?_append_left (by omega)]
      rfl
    | succ k =>
      have hindex : (k + 1) * length + j = block.length + (k * length + j) := by
        rw [Nat.succ_mul, h.1]
        omega
      rw [hindex, List.getElem?_append_right (Nat.le_add_right ..), Nat.add_sub_cancel_left,
        ih h.2 (Nat.lt_of_succ_lt_succ hk)]
      rfl

/-- Numbers of four bytes each are the digits, to the base 2^32, of the number with all their bytes for digits. -/
theorem ofDigits_limbs {blocks : List (List UInt8)} (h : ∀ block ∈ blocks, block.length = 4) :
    (∀ limb ∈ blocks.map fun block => Nat.ofDigits 256 (block.map UInt8.toNat), limb < 2 ^ 32) ∧
      Nat.ofDigits (2 ^ 32) (blocks.map fun block => Nat.ofDigits 256 (block.map UInt8.toNat)) =
        Nat.ofDigits 256 (blocks.flatten.map UInt8.toNat) := by
  have hbase : 256 ^ 4 = 2 ^ 32 := by decide
  constructor
  · intro limb hlimb
    obtain ⟨block, hblock, rfl⟩ := List.mem_map.mp hlimb
    have hlt := ofDigits_lt block
    rw [h block hblock] at hlt
    exact hlt
  · have hlengths : ∀ block ∈ blocks.map (List.map UInt8.toNat), block.length = 4 := by
      intro block hblock
      obtain ⟨bytes, hbytes, rfl⟩ := List.mem_map.mp hblock
      rw [List.length_map, h bytes hbytes]
    rw [List.map_flatten, ofDigits_flatten 256 hlengths, hbase, List.map_map]
    rfl

end WordAux

open WordAux

namespace Word

theorem length_bytes (w : Word) : w.bytes.length = 32 := by
  simp [bytes]

/-- From the end the bytes of a word are its digits in order. -/
theorem bytes_reverse (w : Word) : w.bytes.reverse = (List.range 32).map w.byteAt := by
  rfl

/-- The lowest byte of a word has its parity. -/
theorem byteAt_zero_parity (w : Word) : (w.byteAt 0).toNat % 2 = w.toNat % 2 := by
  rw [byteAt, Nat.mul_zero, Nat.shiftRight_zero, UInt8.toNat_ofNat']
  omega

/-- A word whose number has 32 bytes for digits has these bytes, the most significant one first. -/
theorem bytes_eq_reverse {w : Word} {digits : List UInt8} (hlength : digits.length = 32)
    (h : w.toNat = Nat.ofDigits 256 (digits.map UInt8.toNat)) : w.bytes = digits.reverse := by
  refine List.ext_getElem? fun i => ?_
  by_cases hi : i < 32
  · have hdigit : 31 - i < digits.length := by omega
    have hreverse : digits.reverse[i]? = digits[31 - i]? := by
      rw [List.getElem?_reverse (by omega), hlength]
    rw [hreverse, List.getElem?_eq_getElem hdigit, bytes, List.getElem?_map, List.getElem?_range hi, Option.map_some, byteAt, h,
      ofDigits_shiftRight (List.getElem?_eq_getElem hdigit)]
  · have hleft : w.bytes.length ≤ i := by
      rw [length_bytes]
      exact Nat.le_of_not_lt hi
    rw [List.getElem?_eq_none hleft, List.getElem?_eq_none (by rw [List.length_reverse]; omega)]

/-- The number of bytes has them for digits, the last one lowest. -/
theorem natOfBytes_eq_ofDigits (bytes : List UInt8) : natOfBytes bytes = Nat.ofDigits 256 (bytes.reverse.map UInt8.toNat) := by
  induction bytes using List.reverseRecOn with
  | nil => rfl
  | append_singleton bytes byte ih =>
    rw [List.reverse_concat, List.map_cons, Nat.ofDigits_cons, ← ih, natOfBytes, List.foldl_concat]
    exact Nat.add_comm _ _

/-- The number of bytes lies below the power of their number. -/
theorem natOfBytes_lt (bytes : List UInt8) : natOfBytes bytes < 256 ^ bytes.length := by
  rw [natOfBytes_eq_ofDigits, ← List.length_reverse]
  exact ofDigits_lt bytes.reverse

/-- The lowest bytes of a word are the lowest digits of its number. -/
theorem ofDigits_byteAt (w : Word) (count : Nat) :
    Nat.ofDigits 256 ((List.range count).map fun i => (w.byteAt i).toNat) = w.toNat % 256 ^ count := by
  induction count with
  | zero => rw [pow_zero, Nat.mod_one, List.range_zero, List.map_nil, Nat.ofDigits_nil]
  | succ count ih =>
    have hpow : 2 ^ (8 * count) = 256 ^ count := Nat.pow_mul 2 8 count
    have hbyte : (w.byteAt count).toNat = w.toNat / 256 ^ count % 256 := by
      rw [byteAt, UInt8.toNat_ofNat', Nat.shiftRight_eq_div_pow, hpow]
    rw [List.range_succ, List.map_append, Nat.ofDigits_append, ih, List.length_map, List.length_range, List.map_singleton,
      Nat.ofDigits_singleton, hbyte, Nat.mod_pow_succ]

/-- The bytes of a word stand for its number. -/
theorem natOfBytes_bytes (w : Word) : natOfBytes w.bytes = w.toNat := by
  have hlt : w.toNat < 256 ^ 32 := w.isLt.trans_eq (Nat.pow_mul 2 8 32)
  rw [natOfBytes_eq_ofDigits, bytes_reverse, List.map_map]
  exact (ofDigits_byteAt w 32).trans (Nat.mod_eq_of_lt hlt)

/-- The word of 32 bytes has their number. -/
theorem toNat_ofBytes {bytes : List UInt8} (hlength : bytes.length = 32) : (ofBytes bytes).toNat = natOfBytes bytes := by
  have hlt := natOfBytes_lt bytes
  rw [hlength, ← Nat.pow_mul 2 8 32] at hlt
  exact (BitVec.toNat_ofNat _ _).trans (Nat.mod_eq_of_lt hlt)

/-- The word that 32 bytes stand for has these bytes. -/
theorem bytes_natOfBytes {bytes : List UInt8} (hlength : bytes.length = 32) :
    Word.bytes (.ofNat 256 (natOfBytes bytes)) = bytes := by
  have hvalue : (BitVec.ofNat 256 (natOfBytes bytes)).toNat = Nat.ofDigits 256 (bytes.reverse.map UInt8.toNat) := by
    rw [← natOfBytes_eq_ofDigits]
    exact toNat_ofBytes hlength
  rw [bytes_eq_reverse (by rw [List.length_reverse, hlength]) hvalue, List.reverse_reverse]

/-! ## Limbs -/

theorem limb_lt (w : Word) (k : Nat) : w.limb k < 2 ^ 32 :=
  Nat.mod_lt _ (by decide)

/-- Every limb of a word has 32 bits. -/
theorem lt_of_mem_limbs (w : Word) {limb : Nat} (h : limb ∈ w.limbs) : limb < 2 ^ 32 := by
  obtain ⟨i, hi, rfl⟩ := Vector.mem_iff_getElem.mp h
  rw [limbs, Vector.getElem_ofFn]
  exact w.limb_lt i

/-- The lowest limbs of a word make up its lowest bits. -/
theorem sum_limb (w : Word) (count : Nat) :
    ∑ i ∈ Finset.range count, w.limb i * 2 ^ (32 * i) = w.toNat % 2 ^ (32 * count) := by
  have hsize : UInt32.size = 2 ^ 32 := rfl
  induction count with
  | zero => rw [Finset.sum_range_zero, Nat.mul_zero, pow_zero, Nat.mod_one]
  | succ count ih =>
    rw [Finset.sum_range_succ, ih, limb, Nat.shiftRight_eq_div_pow, hsize, Nat.mul_succ, pow_add, Nat.mod_mul,
      Nat.mul_comm (2 ^ _)]

/-- The limbs of a word make up its number. -/
theorem sum_limbs (w : Word) : ∑ i : Fin 8, w.limbs.get i * 2 ^ (32 * (i : Nat)) = w.toNat := by
  have hlimb : ∀ i : Fin 8, w.limbs.get i = w.limb i := fun i => Vector.getElem_ofFn i.isLt
  simp only [hlimb]
  rw [Fin.sum_univ_eq_sum_range fun i => w.limb i * 2 ^ (32 * i), sum_limb, Nat.mod_eq_of_lt w.isLt]

/-- A byte of a word is a byte of one of its limbs. -/
theorem limb_byte (w : Word) (k : Nat) : w.limb (k / 4) / 256 ^ (k % 4) % 256 = (w.byteAt k).toNat := by
  have hshift : 8 * k = 32 * (k / 4) + 8 * (k % 4) := by omega
  have hpow : 2 ^ (8 * (k % 4)) = 256 ^ (k % 4) := Nat.pow_mul 2 8 _
  have hdvd : 256 ^ (k % 4) * 256 ∣ UInt32.size := by
    rw [← Nat.pow_succ]
    exact Nat.pow_dvd_pow 256 (Nat.mod_lt k (by decide) : k % 4 < 4)
  rw [limb, byteAt, UInt8.toNat_ofNat', hshift, Nat.shiftRight_add, Nat.shiftRight_eq_div_pow _ (8 * (k % 4)), hpow,
    ← Nat.mod_mul_right_div_self, Nat.mod_mod_of_dvd _ hdvd, Nat.mod_mul_right_div_self]

/-- A digit of a limb is a byte of the word. -/
theorem limb_digit (w : Word) (i : Nat) {j : Nat} (hj : j < 4) :
    w.limb i / 256 ^ j % 256 = (w.byteAt (4 * i + j)).toNat := by
  have hbyte := w.limb_byte (4 * i + j)
  rwa [Nat.mul_add_div (by decide), Nat.div_eq_of_lt hj, Nat.add_zero, Nat.mul_add_mod, Nat.mod_eq_of_lt hj] at hbyte

/-- A limb is the number of four bytes, which are counted from the last one. -/
theorem get_limbs (w : Word) (i : Fin 8) : w.limbs.get i = natOfBytes ((w.bytes.drop (28 - 4 * i)).take 4) := by
  have hbytes : (w.bytes.drop (28 - 4 * i)).take 4 =
      [w.byteAt (4 * i + 3), w.byteAt (4 * i + 2), w.byteAt (4 * i + 1), w.byteAt (4 * i + 0)] := by
    fin_cases i <;> rfl
  have hlt := w.limb_lt i
  have hlimb : w.limbs.get i = w.limb i := Vector.getElem_ofFn i.isLt
  rw [hlimb, hbytes]
  simp only [natOfBytes, List.foldl_cons, List.foldl_nil, ← w.limb_digit i (by decide : 0 < 4),
    ← w.limb_digit i (by decide : 1 < 4), ← w.limb_digit i (by decide : 2 < 4), ← w.limb_digit i (by decide : 3 < 4)]
  norm_num
  omega

/-- The digits of the limbs, limb after limb, are the bytes from the least significant one on. -/
theorem flatMap_limbs (w : Word) :
    (w.limbs.toList.flatMap fun limb => (List.range 4).map fun j => limb / 256 ^ j % 256) =
      w.bytes.reverse.map UInt8.toNat := by
  have hlimbs : w.limbs.toList = (List.range 8).map w.limb := rfl
  have hrange : List.range 32 = (List.range 8).flatMap fun i => (List.range 4).map fun j => 4 * i + j := rfl
  rw [hlimbs, bytes_reverse, hrange, List.map_flatMap, List.map_flatMap, List.flatMap_map]
  refine List.flatMap_congr fun i _ => ?_
  rw [List.map_map, List.map_map]
  exact List.map_congr_left fun j hj => w.limb_digit i (List.mem_range.mp hj)

end Word

end ScriptCircuit
