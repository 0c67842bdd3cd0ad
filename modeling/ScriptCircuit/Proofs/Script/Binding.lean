import Mathlib
import ScriptCircuit.Proofs.Curve.PublicKey
import ScriptCircuit.Proofs.Field.Combination

/-!
# What the fold of keys binds

The challenge that combines the bytes of a key also combines the keys, so bytes of neighbouring keys meet in one power. The
fold is the value of the polynomial of the sums of these bytes: two lists of keys with the same sums have the same fold for
every challenge, and any other two have it for no more challenges than the degree. Lists that differ in one key only never
have the same sums, but lists that differ in two may.
-/

namespace ScriptCircuit.Combination

open Polynomial

/-- The byte of a serial key that is combined with a power of the challenge, the last byte with the power zero. -/
def byteAtPower (key : List UInt8) (k : Nat) : Nat :=
  (key.reverse[k]?.map UInt8.toNat).getD 0

/-- The sum of the bytes that the fold of a list of keys combines with a power of the challenge. -/
def powerSum : List (List UInt8) → Nat → Nat
  | [], _ => 0
  | key :: rest, k => (if rest.length ≤ k then byteAtPower key (k - rest.length) else 0) + powerSum rest k

/-- A byte counts for at most 255. -/
theorem byteAtPower_le (key : List UInt8) (k : Nat) : byteAtPower key k ≤ 255 := by
  unfold byteAtPower
  cases key.reverse[k]? with
  | none => exact Nat.zero_le _
  | some b => exact Nat.le_of_lt_succ b.toNat_lt

/-- Behind a key there are no bytes. -/
theorem byteAtPower_eq_zero {key : List UInt8} {k : Nat} (h : key.length ≤ k) : byteAtPower key k = 0 := by
  rw [byteAtPower, List.getElem?_eq_none (by rwa [List.length_reverse])]
  rfl

/-- At one power at most one byte of each key counts. -/
theorem powerSum_le (keys : List (List UInt8)) (k : Nat) : powerSum keys k ≤ 255 * keys.length := by
  induction keys with
  | nil => exact Nat.zero_le _
  | cons key rest ih =>
    have hbyte := byteAtPower_le key (k - rest.length)
    rw [powerSum, List.length_cons]
    split <;> omega

/-- No byte meets a power above the length of the keys and the number of keys that follow. -/
theorem powerSum_eq_zero {keys : List (List UInt8)} {length k : Nat} (hlength : ∀ key ∈ keys, key.length ≤ length)
    (hk : length + keys.length ≤ k + 1) : powerSum keys k = 0 := by
  induction keys with
  | nil => rfl
  | cons key rest ih =>
    rw [List.forall_mem_cons] at hlength
    rw [List.length_cons] at hk
    rw [powerSum, ih hlength.2 (by omega)]
    split
    · rw [byteAtPower_eq_zero (by omega)]
    · rfl

/-- A serial key as a polynomial of the challenge. -/
noncomputable def keyPoly (key : List UInt8) : Felt[X] :=
  key.foldl (fun acc b => X * acc + C (.ofByte b)) 0

/-- One byte more shifts the polynomial of a key and adds the byte. -/
theorem keyPoly_concat (key : List UInt8) (b : UInt8) : keyPoly (key ++ [b]) = X * keyPoly key + C (.ofByte b) :=
  List.foldl_concat ..

/-- The polynomial of a key has its combination as values. -/
theorem eval_keyPoly (r : Felt) (key : List UInt8) : (keyPoly key).eval r = horner r 0 key := by
  induction key using List.reverseRecOn with
  | nil => exact eval_zero
  | append_singleton key b ih => rw [keyPoly_concat, horner_concat, eval_add, eval_mul, eval_X, eval_C, ih]

/-- The coefficients of the polynomial of a key are its bytes. -/
theorem coeff_keyPoly (key : List UInt8) (k : Nat) : (keyPoly key).coeff k = byteAtPower key k := by
  induction key using List.reverseRecOn generalizing k with
  | nil => rfl
  | append_singleton key b ih =>
    rw [keyPoly_concat, coeff_add, byteAtPower, List.reverse_concat]
    cases k with
    | zero =>
      rw [coeff_X_mul_zero, zero_add, coeff_C_zero, Felt.ofByte_eq]
      rfl
    | succ k =>
      rw [coeff_X_mul, coeff_C_succ, add_zero, ih]
      rfl

/-- A list of serial keys as a polynomial of the challenge. -/
noncomputable def foldPoly (keys : List (List UInt8)) : Felt[X] :=
  keys.foldl (fun acc key => acc * X + keyPoly key) 0

/-- One key more shifts the polynomial of the fold and adds that of the key. -/
theorem foldPoly_concat (keys : List (List UInt8)) (key : List UInt8) :
    foldPoly (keys ++ [key]) = foldPoly keys * X + keyPoly key :=
  List.foldl_concat ..

/-- The polynomial of the fold has the fold as values. -/
theorem eval_foldPoly (r : Felt) (keys : List (List UInt8)) : (foldPoly keys).eval r = keyFold r keys := by
  induction keys using List.reverseRecOn with
  | nil => exact eval_zero
  | append_singleton keys key ih =>
    rw [foldPoly_concat, keyFold_concat, eval_add, eval_mul, eval_X, eval_keyPoly, ih]

/-- Folding onto a start adds the sums to the shifted coefficients of the start. -/
theorem coeff_foldl (acc : Felt[X]) (keys : List (List UInt8)) (k : Nat) :
    (keys.foldl (fun acc key => acc * X + keyPoly key) acc).coeff k = (acc * X ^ keys.length).coeff k + powerSum keys k := by
  induction keys generalizing acc with
  | nil => simp [powerSum]
  | cons key rest ih =>
    rw [List.foldl_cons, ih, add_mul, coeff_add, mul_assoc, ← pow_succ', powerSum, coeff_mul_X_pow' (keyPoly key),
      List.length_cons]
    split
    · rw [coeff_keyPoly, Nat.cast_add, add_assoc]
    · rw [zero_add, add_zero]

/-- The coefficients of the polynomial of the fold are the sums of the bytes that meet. -/
theorem coeff_foldPoly (keys : List (List UInt8)) (k : Nat) : (foldPoly keys).coeff k = powerSum keys k := by
  rw [foldPoly, coeff_foldl, zero_mul, coeff_zero, zero_add]

/-- The sums of the bytes of at most four keys are told apart in the field. -/
theorem foldPoly_inj {keys keys' : List (List UInt8)} (hcount : keys.length ≤ 4) (hcount' : keys'.length ≤ 4) :
    foldPoly keys = foldPoly keys' ↔ ∀ k, powerSum keys k = powerSum keys' k := by
  rw [Polynomial.ext_iff]
  refine forall_congr' fun k => ?_
  have hle := powerSum_le keys k
  have hle' := powerSum_le keys' k
  rw [coeff_foldPoly, coeff_foldPoly]
  exact Felt.natCast_inj (by omega) (by omega)

/-- Two folds of at most four keys of at most 65 bytes that differ as polynomials have at most 67 challenges in common. -/
theorem card_le_of_powerSum_ne {keys keys' : List (List UInt8)} (hcount : keys.length ≤ 4) (hcount' : keys'.length ≤ 4)
    (hkeys : ∀ key ∈ keys, key.length ≤ 65) (hkeys' : ∀ key ∈ keys', key.length ≤ 65)
    (hne : ∃ k, powerSum keys k ≠ powerSum keys' k) {s : Finset Felt} (hs : ∀ r ∈ s, keyFold r keys = keyFold r keys') :
    s.card ≤ 67 := by
  have hpoly : foldPoly keys - foldPoly keys' ≠ 0 := by
    rw [sub_ne_zero, Ne, foldPoly_inj hcount hcount']
    exact not_forall.mpr hne
  have hdegree : (foldPoly keys - foldPoly keys').natDegree ≤ 67 := by
    refine natDegree_le_iff_coeff_eq_zero.mpr fun k hk => ?_
    rw [coeff_sub, coeff_foldPoly, coeff_foldPoly, powerSum_eq_zero hkeys (by omega), powerSum_eq_zero hkeys' (by omega),
      sub_self]
  refine le_trans (card_le_degree_of_subset_roots fun r hr => ?_) hdegree
  rw [mem_roots hpoly, IsRoot.def, eval_sub, eval_foldPoly, eval_foldPoly, sub_eq_zero]
  exact hs r hr

/-- A serial key starts with a byte that is not zero. -/
theorem byteAtPower_last_ne_zero {bytes : List UInt8} {key : PublicKey} (h : PublicKey.parse bytes = .ok key) :
    byteAtPower bytes (bytes.length - 1) ≠ 0 := by
  have hserial : ∃ compressed, bytes = key.serialize compressed := by
    obtain ⟨-, h⟩ | ⟨-, h⟩ := PublicKey.serialize_of_parse h <;> exact ⟨_, h⟩
  obtain ⟨compressed, rfl⟩ := hserial
  have hform : (key.form compressed).toNat ≠ 0 := by
    unfold PublicKey.form
    split
    · split <;> decide
    · decide
  rw [byteAtPower, List.getElem?_reverse (by simp [PublicKey.serialize]), PublicKey.serialize]
  simpa using hform

/-- Serial keys with the same byte at every power are the same. -/
theorem eq_of_byteAtPower {bytes bytes' : List UInt8} {key key' : PublicKey} (h : PublicKey.parse bytes = .ok key)
    (h' : PublicKey.parse bytes' = .ok key') (heq : ∀ k, byteAtPower bytes k = byteAtPower bytes' k) : bytes = bytes' := by
  -- the first byte of the longer one would stand at a power where the other has none
  have hlength : bytes.length = bytes'.length := by
    refine le_antisymm (Nat.le_of_not_lt fun hlt => ?_) (Nat.le_of_not_lt fun hlt => ?_)
    · refine byteAtPower_last_ne_zero h ?_
      rw [heq, byteAtPower_eq_zero (by omega)]
    · refine byteAtPower_last_ne_zero h' ?_
      rw [← heq, byteAtPower_eq_zero (by omega)]
  refine List.reverse_injective (List.ext_getElem? fun k => ?_)
  by_cases hk : k < bytes.length
  · have hbyte := heq k
    rw [byteAtPower, byteAtPower, List.getElem?_eq_getElem (by rwa [List.length_reverse]),
      List.getElem?_eq_getElem (by rwa [List.length_reverse, ← hlength])] at hbyte
    rw [List.getElem?_eq_getElem (by rwa [List.length_reverse]),
      List.getElem?_eq_getElem (by rwa [List.length_reverse, ← hlength])]
    exact congrArg some (UInt8.toNat_inj.mp hbyte)
  · rw [List.getElem?_eq_none (by rw [List.length_reverse]; omega), List.getElem?_eq_none (by rw [List.length_reverse]; omega)]

/-- Keys in front of two lists of one length add the same sums to both. -/
theorem powerSum_append_eq {rest rest' : List (List UInt8)} (hlength : rest.length = rest'.length)
    (before : List (List UInt8)) (k : Nat) :
    powerSum (before ++ rest) k = powerSum (before ++ rest') k ↔ powerSum rest k = powerSum rest' k := by
  induction before with
  | nil => rfl
  | cons key before ih =>
    rw [List.cons_append, List.cons_append, powerSum, powerSum, List.length_append, List.length_append, hlength, ← ih]
    exact Nat.add_left_cancel_iff

/-- Lists of serial keys that differ in one key only have different sums. -/
theorem powerSum_ne_of_one {before after : List (List UInt8)} {bytes bytes' : List UInt8} {key key' : PublicKey}
    (h : PublicKey.parse bytes = .ok key) (h' : PublicKey.parse bytes' = .ok key') (hne : bytes ≠ bytes') :
    ∃ k, powerSum (before ++ bytes :: after) k ≠ powerSum (before ++ bytes' :: after) k := by
  by_contra hall
  push Not at hall
  refine hne (eq_of_byteAtPower h h' fun k => ?_)
  have hlength : (bytes :: after).length = (bytes' :: after).length := rfl
  have hsum := (powerSum_append_eq hlength before (k + after.length)).mp (hall (k + after.length))
  rw [powerSum, powerSum, if_pos (Nat.le_add_left _ _), if_pos (Nat.le_add_left _ _), Nat.add_sub_cancel] at hsum
  exact Nat.add_right_cancel hsum

/-- The short serial form of a point with a small first coordinate and an even second one. -/
def smallKey (upper lower : UInt8) : List UInt8 :=
  0x02 :: (List.replicate 30 0 ++ [upper, lower])

/-- The small keys whose first coordinates are one, two and 257. -/
def smallKeys : List (List UInt8) :=
  [smallKey 0 1, smallKey 0 2, smallKey 1 1]

/-- The small keys are keys. -/
theorem parse_smallKeys : ∀ bytes ∈ smallKeys, ∃ key, PublicKey.parse bytes = .ok key := by
  have hok : ∀ bytes ∈ smallKeys, (PublicKey.parse bytes).isOk = true := by decide +kernel
  intro bytes hbytes
  have hparse := hok bytes hbytes
  cases h : PublicKey.parse bytes with
  | ok key => exact ⟨key, rfl⟩
  | error e =>
    rw [h] at hparse
    cases hparse

/-- The sums stay what they are when one unit of the last byte of the first key goes to the last byte but one of the second. -/
theorem powerSum_moved (k : Nat) :
    powerSum [smallKey 0 2, smallKey 0 1] k = powerSum [smallKey 0 1, smallKey 1 1] k := by
  have hlow : ∀ k < 34, powerSum [smallKey 0 2, smallKey 0 1] k = powerSum [smallKey 0 1, smallKey 1 1] k := by decide
  by_cases hk : k < 34
  · exact hlow k hk
  · have hzero : ∀ upper lower upper' lower', powerSum [smallKey upper lower, smallKey upper' lower'] k = 0 := by
      intro upper lower upper' lower'
      refine powerSum_eq_zero (fun bytes hbytes => ?_) (Nat.succ_le_succ (Nat.le_of_not_lt hk))
      obtain ⟨upper, lower, rfl⟩ : ∃ upper lower, bytes = smallKey upper lower := by
        simp only [List.mem_cons, List.not_mem_nil, or_false] at hbytes
        obtain rfl | rfl := hbytes <;> exact ⟨_, _, rfl⟩
      exact Nat.le_refl 33
    rw [hzero, hzero]

/-- Two different lists of at most four serial keys have one fold for every challenge if the bytes that meet in a power have
the same sum for each power, and for at most 67 challenges if they do not. Lists that differ in one key only are of the
second kind. -/
theorem keyFold_binds_sums {keys keys' : List (List UInt8)} (hlength : keys.length = keys'.length) (hcount : keys.length ≤ 4)
    (hkeys : ∀ bytes ∈ keys ++ keys', ∃ key, PublicKey.parse bytes = .ok key) :
    ((∀ k, powerSum keys k = powerSum keys' k) → ∀ r, keyFold r keys = keyFold r keys') ∧
      ((∃ k, powerSum keys k ≠ powerSum keys' k) →
        ∀ s : Finset Felt, (∀ r ∈ s, keyFold r keys = keyFold r keys') → s.card ≤ 67) ∧
      ∀ before bytes bytes' after, keys = before ++ bytes :: after → keys' = before ++ bytes' :: after → bytes ≠ bytes' →
        ∃ k, powerSum keys k ≠ powerSum keys' k := by
  have hcount' : keys'.length ≤ 4 := hlength ▸ hcount
  have hsize : ∀ bytes ∈ keys ++ keys', bytes.length ≤ 65 := by
    intro bytes hbytes
    obtain ⟨key, hparse⟩ := hkeys bytes hbytes
    obtain ⟨h, -⟩ | ⟨h, -⟩ := PublicKey.serialize_of_parse hparse <;> omega
  refine ⟨fun hsums r => ?_, fun hne s hs => ?_, ?_⟩
  · rw [← eval_foldPoly, ← eval_foldPoly, (foldPoly_inj hcount hcount').mpr hsums]
  · exact card_le_of_powerSum_ne hcount hcount' (fun bytes h => hsize bytes (List.mem_append_left _ h))
      (fun bytes h => hsize bytes (List.mem_append_right _ h)) hne hs
  · rintro before bytes bytes' after rfl rfl hne
    obtain ⟨key, hparse⟩ := hkeys bytes (by simp)
    obtain ⟨key', hparse'⟩ := hkeys bytes' (by simp)
    exact powerSum_ne_of_one hparse hparse' hne

/-- Two of the small keys have one fold with two others for every challenge: one unit less in the last byte of the first key
is one unit more in the last byte but one of the second. With one key changed alone, few folds agree. -/
theorem keyFold_binds_sums_twoKeys :
    (∀ bytes ∈ smallKeys, ∃ key, PublicKey.parse bytes = .ok key) ∧
      (∀ r, keyFold r [smallKey 0 2, smallKey 0 1] = keyFold r [smallKey 0 1, smallKey 1 1]) ∧
      ∀ s : Finset Felt, (∀ r ∈ s, keyFold r [smallKey 0 2, smallKey 0 1] = keyFold r [smallKey 0 1, smallKey 0 1]) →
        s.card ≤ 67 := by
  have hmoved : ∀ bytes ∈ [smallKey 0 2, smallKey 0 1] ++ [smallKey 0 1, smallKey 1 1], bytes ∈ smallKeys := by decide
  have hchanged : ∀ bytes ∈ [smallKey 0 2, smallKey 0 1] ++ [smallKey 0 1, smallKey 0 1], bytes ∈ smallKeys := by decide
  have hlength : [smallKey 0 2, smallKey 0 1].length = [smallKey 0 1, smallKey 1 1].length := rfl
  have hlength' : [smallKey 0 2, smallKey 0 1].length = [smallKey 0 1, smallKey 0 1].length := rfl
  obtain ⟨hsame, -, -⟩ := keyFold_binds_sums hlength (by decide) fun bytes h => parse_smallKeys bytes (hmoved bytes h)
  obtain ⟨-, hfew, hone⟩ := keyFold_binds_sums hlength' (by decide) fun bytes h => parse_smallKeys bytes (hchanged bytes h)
  exact ⟨parse_smallKeys, hsame powerSum_moved, hfew (hone [] _ _ [smallKey 0 1] rfl rfl (by decide))⟩

/-- Four points of the curve: moving one unit of the last byte of the first key to the last byte but one of the second key
keeps the sum at that power. -/
theorem keyFold_binds_false :
    ¬∀ keys keys' : List (List UInt8), keys.length = keys'.length → keys.length ≤ 4 → keys ≠ keys' →
      (∀ bytes ∈ keys ++ keys', ∃ key, PublicKey.parse bytes = .ok key) →
      ∀ s : Finset Felt, (∀ r ∈ s, keyFold r keys = keyFold r keys') → s.card ≤ 67 := by
  intro h
  have hparse : ∀ bytes ∈ [smallKey 0 2, smallKey 0 1] ++ [smallKey 0 1, smallKey 1 1],
      ∃ key, PublicKey.parse bytes = .ok key := by
    have hsmall : ∀ bytes ∈ [smallKey 0 2, smallKey 0 1] ++ [smallKey 0 1, smallKey 1 1], bytes ∈ smallKeys := by decide
    exact fun bytes hbytes => parse_smallKeys bytes (hsmall bytes hbytes)
  have hfold : ∀ r, keyFold r [smallKey 0 2, smallKey 0 1] = keyFold r [smallKey 0 1, smallKey 1 1] := by
    intro r
    rw [← eval_foldPoly, ← eval_foldPoly, (foldPoly_inj (by decide) (by decide)).mpr powerSum_moved]
  have hcard : ((Finset.range 68).image (Nat.cast : Nat → Felt)).card = 68 := by
    refine (Finset.card_image_of_injOn fun m hm n hn hmn => ?_).trans (Finset.card_range 68)
    rw [Finset.mem_coe, Finset.mem_range] at hm hn
    exact (Felt.natCast_inj (by omega) (by omega)).mp hmn
  have hle := h [smallKey 0 2, smallKey 0 1] [smallKey 0 1, smallKey 1 1] rfl (by decide) (by decide) hparse
    ((Finset.range 68).image Nat.cast) fun r _ => hfold r
  rw [hcard] at hle
  exact absurd hle (by decide)

end ScriptCircuit.Combination
