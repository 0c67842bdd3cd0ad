import Mathlib
import ScriptCircuit.Proofs.Bridge.Rows

/-!
# The keys of an accepted bridge

In an accepted bridge whose copy constraints agree, the limbs of a key have 32 bits, the bytes in its bridge row are the
digits of the words they stand for, and the first byte goes with the parity of the second word. What a slot folds is
therefore the combination of that key.
-/

namespace ScriptCircuit

namespace Verification

/-- The numbers in a block of limbs in a row of a claim. -/
def limbValues (block : Vector Column 8) (claim : Claim) (row : Nat) : List Nat :=
  block.toList.map fun column => (claim.value column row).toNat

/-- The key whose limbs stand in a row of a claim. -/
def keyAt (v : Verification) (claim : Claim) (row : Nat) : PublicKey where
  x := .ofNat 256 (Nat.ofDigits (2 ^ 32) (limbValues v.x claim row))
  y := .ofNat 256 (Nat.ofDigits (2 ^ 32) (limbValues v.y claim row))

end Verification

namespace Bridge

/-! ## The parity table -/

/-- A row of the parity table has the full form, or a short form with its parity, or is zero. -/
theorem Columns.parityRow_cases (row : Nat) : (parityRow row).1 = PublicKey.fullForm ∨
    (parityRow row).1 = ParityTable.shortForm (parityRow row).2 ∨ (parityRow row).1 = 0 := by
  unfold parityRow
  rw [List.getD_eq_getElem?_getD]
  cases h : ParityTable.rows[row]? with
  | none => exact .inr (.inr rfl)
  | some pair =>
    have hmem : pair ∈ ParityTable.rows := List.mem_of_getElem? h
    simp only [ParityTable.rows, List.mem_append, List.mem_map, List.mem_singleton] at hmem
    rcases hmem with (⟨byte, -, rfl⟩ | ⟨byte, -, rfl⟩) | rfl
    · exact .inl rfl
    · exact .inr (.inl rfl)
    · exact .inr (.inr rfl)

/-- A short form is the even or the odd one. -/
theorem shortForm_cases (byte : UInt8) :
    (ParityTable.shortForm byte = PublicKey.evenForm ∧ byte.toNat % 2 = 0) ∨
      (ParityTable.shortForm byte = PublicKey.oddForm ∧ byte.toNat % 2 = 1) := by
  unfold ParityTable.shortForm
  by_cases h : byte.toNat % 2 = 0
  · rw [if_pos h]
    exact .inl ⟨rfl, h⟩
  · rw [if_neg h]
    exact .inr ⟨rfl, by omega⟩

namespace Columns

variable {c : Columns} {claim : Claim} {verification range bridge : Nat}

namespace Accepted

variable (h : c.Accepted claim verification range bridge)
include h

/-- The first byte goes with the parity of the last byte of the second coordinate. -/
theorem parity {i : Nat} (hi : i < maxSignatures) : ∃ byte : UInt8, claim.value c.y[0] (bridge + i) = .ofByte byte ∧
    (claim.value c.form (bridge + i) = 2 → byte.toNat % 2 = 0) ∧
    (claim.value c.form (bridge + i) = 3 → byte.toNat % 2 = 1) := by
  have hrow := h.row_lt (Nat.le_of_lt hi)
  obtain ⟨row, hlt, hfinds⟩ := h.lookups (c.parity.lookup c.isSlot.cur c.form.cur c.y[0].cur) (by simp [Columns.lookups]) _ hrow
  obtain ⟨hformRow, hbyteRow⟩ := h.placed.parity row hlt
  simp only [ParityTable.Columns.lookup, Lookup.inputs, Lookup.table, List.map_cons, List.map_nil, Expr.eval_mul,
    Column.eval_cur, h.read_slot hi, one_mul, claim.read_zero _ hrow, hformRow, hbyteRow, List.cons.injEq, and_true] at hfinds
  obtain ⟨hform, hbyte⟩ := hfinds
  have hshort : ∀ {form : UInt8}, claim.value c.form (bridge + i) = .ofByte form → form ≠ PublicKey.fullForm → form ≠ 0 →
      ParityTable.shortForm (parityRow row).2 = form := by
    intro form heq hfull hzero
    have hfirst : (parityRow row).1 = form := Felt.ofByte_inj.mp (hform.symm.trans heq)
    rcases parityRow_cases row with h | h | h
    · exact absurd (hfirst.symm.trans h) hfull
    · exact h.symm.trans hfirst
    · exact absurd (hfirst.symm.trans h) hzero
  refine ⟨_, hbyte, fun htwo => ?_, fun hthree => ?_⟩
  · have heven : _ = PublicKey.evenForm := hshort htwo (by decide) (by decide)
    rcases shortForm_cases (parityRow row).2 with ⟨-, hparity⟩ | ⟨hodd, -⟩
    · exact hparity
    · exact absurd (hodd.symm.trans heven) (by decide)
  · have hodd : _ = PublicKey.oddForm := hshort hthree (by decide) (by decide)
    rcases shortForm_cases (parityRow row).2 with ⟨heven, -⟩ | ⟨-, hparity⟩
    · exact absurd (heven.symm.trans hodd) (by decide)
    · exact hparity

/-! ## The digits -/

/-- The decomposition of a limb, by the number of the limb. -/
theorem limb {n : Nat} (hn : n < maxSignatures * 16) : ∃ bytes : List UInt8, bytes.length = 4 ∧
    (∀ j byte, bytes[j]? = some byte → claim.value c.range.byte (range + n * limbRows + j) = .ofByte byte) ∧
    claim.value c.range.runningSum (range + n * limbRows) = .ofNat (Nat.ofDigits 256 (bytes.map UInt8.toNat)) := by
  have hend := h.placed.range_le
  have hrows : maxSignatures * slotRows = 320 := rfl
  have hlimbs : maxSignatures * 16 = 64 := rfl
  have hlimbRows : limbRows = 5 := rfl
  rw [hrows] at hend
  rw [hlimbs] at hn
  rw [hlimbRows]
  refine h.range_accepted.decomposition (by omega) (fun j hj => ?_) ?_
  · rw [h.placed.step _ (by omega), if_pos]
    simp only [ByteRange.AtPlace, hlimbs, hlimbRows]
    omega
  · rw [h.placed.stop _ (by omega), if_pos]
    simp only [ByteRange.AtPlace, hlimbs, hlimbRows]
    omega

/-- A coordinate whose limbs are decomposed one after the other, and whose bytes stand in a row. -/
theorem coordinate {block : Vector Column 8} {columns : Vector Column 32} {n row row' : Nat} (hn : n + 8 ≤ maxSignatures * 16)
    (hlimbs : ∀ k (hk : k < 8), claim.value block[k] row = claim.value c.range.runningSum (range + (n + k) * limbRows))
    (hbytes : ∀ k (hk : k < 32), claim.value columns[k] row' =
      claim.value c.range.byte (range + (n + k / 4) * limbRows + k % 4)) :
    ∃ digits : List UInt8, digits.length = 32 ∧
      columns.toList.map (fun column => claim.value column row') = digits.map .ofByte ∧
      (∀ limb ∈ Verification.limbValues block claim row, limb < 2 ^ 32) ∧
      Nat.ofDigits (2 ^ 32) (Verification.limbValues block claim row) = Nat.ofDigits 256 (digits.map UInt8.toNat) := by
  have hlimb : ∀ k : Fin 8, ∃ bytes : List UInt8, bytes.length = 4 ∧ (∀ j byte, bytes[j]? = some byte →
      claim.value c.range.byte (range + (n + k) * limbRows + j) = .ofByte byte) ∧
      (claim.value block[k] row).toNat = Nat.ofDigits 256 (bytes.map UInt8.toNat) := by
    intro k
    obtain ⟨bytes, hlength, hbyte, hsum⟩ := h.limb (n := n + k) (by omega)
    have hlt := WordAux.ofDigits_lt bytes
    rw [hlength] at hlt
    refine ⟨bytes, hlength, hbyte, ?_⟩
    rw [Fin.getElem_fin, hlimbs k k.isLt, hsum, Felt.ofNat_eq, Felt.toNat_natCast_of_lt (Nat.lt_trans hlt (by decide))]
  choose bytes hlength hbyte hsum using hlimb
  have hblocks : ∀ block ∈ List.ofFn bytes, block.length = 4 := by
    intro block hblock
    obtain ⟨k, rfl⟩ := List.mem_ofFn.mp hblock
    exact hlength k
  have hvalues : Verification.limbValues block claim row =
      (List.ofFn bytes).map fun bytes => Nat.ofDigits 256 (bytes.map UInt8.toNat) := by
    refine List.ext_getElem (by simp [Verification.limbValues]) fun k hk _ => ?_
    have hk' : k < 8 := by simpa [Verification.limbValues] using hk
    simp only [Verification.limbValues, List.getElem_map, Vector.getElem_toList, List.getElem_ofFn]
    exact hsum ⟨k, hk'⟩
  have hdigits : (List.ofFn bytes).flatten.length = 32 := by
    rw [List.length_flatten, List.map_ofFn]
    simp only [Function.comp_def, hlength]
    rfl
  refine ⟨(List.ofFn bytes).flatten, hdigits, ?_, ?_, ?_⟩
  · refine List.ext_getElem (by rw [List.length_map, List.length_map, Vector.length_toList, hdigits]) fun k hk _ => ?_
    rw [List.length_map, Vector.length_toList] at hk
    have hentry := WordAux.getElem?_flatten hblocks (k := k / 4) (j := k % 4) (by rw [List.length_ofFn]; omega) (by omega)
    rw [Nat.div_add_mod', List.getElem_ofFn, List.getElem?_eq_getElem (by rw [hdigits]; exact hk)] at hentry
    rw [List.getElem_map, List.getElem_map, Vector.getElem_toList, hbytes k hk]
    exact hbyte ⟨k / 4, by omega⟩ (k % 4) _ hentry.symm
  · rw [hvalues]
    exact (WordAux.ofDigits_limbs hblocks).1
  · rw [hvalues]
    exact (WordAux.ofDigits_limbs hblocks).2

end Accepted

/-! ## The copies -/

/-- The copy constraints of a bridge over slots agree in a claim. -/
structure Copied (c : Columns) (claim : Claim) (verification range bridge : Nat) : Prop where
  verification_lt : verification + maxSignatures ≤ UInt64.size
  range_lt : range + maxSignatures * slotRows ≤ UInt64.size
  bridge_lt : bridge + maxSignatures ≤ UInt64.size
  agrees : ∃ slots : List Slot, slots.length = maxSignatures ∧
    ∀ copy ∈ c.bridgeCopies verification range bridge slots, claim.Agrees copy

namespace Copied

variable (h : c.Copied claim verification range bridge)
include h

/-- The running sums of a key start with its limbs. -/
theorem limb {i k : Nat} (hi : i < maxSignatures) (hk : k < 8) :
    claim.value c.verification.x[k] (verification + i) =
        claim.value c.range.runningSum (range + (i * 16 + k) * limbRows) ∧
      claim.value c.verification.y[k] (verification + i) =
        claim.value c.range.runningSum (range + (i * 16 + 8 + k) * limbRows) := by
  obtain ⟨slots, hslots, hagrees⟩ := h.agrees
  have hlt : i < slots.length := by
    rw [hslots]
    exact hi
  have hverification := h.verification_lt
  have hrange := h.range_lt
  have hrows : maxSignatures * slotRows = 320 := rfl
  have hslotRows : slotRows = 80 := rfl
  have hlimbRows : limbRows = 5 := rfl
  rw [hrows] at hrange
  have hi' : i < 4 := hi
  have hcopy : ∀ {cell offset}, (cell, c.range.runningSum, offset) ∈
      c.keyLinks (i * slotRows) (c.limbPairs verification i slots[i].key) →
        claim.Agrees ⟨cell, ⟨c.range.runningSum, rowAt range offset⟩⟩ := by
    intro cell offset hlink
    refine hagrees _ (List.mem_append_left _ (List.mem_flatMap.mpr ⟨(slots[i], i), ?_, List.mem_map.mpr ⟨_, hlink, rfl⟩⟩))
    exact List.mem_zipIdx_iff_getElem?.mpr (List.getElem?_eq_getElem hlt)
  have hx : claim.value c.verification.x[k] (rowAt verification i) =
      claim.value c.range.runningSum (rowAt range (i * slotRows + k * limbRows)) :=
    (hcopy (mem_keyLinks.mpr (.inl (ByteRange.mem_limbLinks.mpr ⟨k, _, by
      rw [map_fst_limbPairs]
      exact Verification.getElem?_limbsAt c.verification.x verification i slots[i].key.x hk, rfl⟩)))).2.2
  have hy : claim.value c.verification.y[k] (rowAt verification i) =
      claim.value c.range.runningSum (rowAt range (i * slotRows + 8 * limbRows + k * limbRows)) :=
    (hcopy (mem_keyLinks.mpr (.inr (ByteRange.mem_limbLinks.mpr ⟨k, _, by
      rw [map_snd_limbPairs]
      exact Verification.getElem?_limbsAt c.verification.y verification i slots[i].key.y hk, rfl⟩)))).2.2
  have hxRow : range + (i * 80 + k * 5) = range + (i * 16 + k) * 5 := by omega
  have hyRow : range + (i * 80 + 8 * 5 + k * 5) = range + (i * 16 + 8 + k) * 5 := by omega
  rw [hslotRows, hlimbRows, rowAt_eq (by omega), rowAt_eq (by omega)] at hx hy
  rw [hxRow] at hx
  rw [hyRow] at hy
  rw [hlimbRows]
  exact ⟨hx, hy⟩

/-- The bytes of a key stand in its bridge row. -/
theorem byte {i k : Nat} (hi : i < maxSignatures) (hk : k < 32) :
    claim.value c.x[k] (bridge + i) =
        claim.value c.range.byte (range + (i * 16 + k / 4) * limbRows + k % 4) ∧
      claim.value c.y[k] (bridge + i) =
        claim.value c.range.byte (range + (i * 16 + 8 + k / 4) * limbRows + k % 4) := by
  obtain ⟨slots, hslots, hagrees⟩ := h.agrees
  have hlt : i < slots.length := by
    rw [hslots]
    exact hi
  have hbridge := h.bridge_lt
  have hrange := h.range_lt
  have hrows : maxSignatures * slotRows = 320 := rfl
  have hslotRows : slotRows = 80 := rfl
  have hlimbRows : limbRows = 5 := rfl
  rw [hrows] at hrange
  have hi' : i < 4 := hi
  have hslot : (c.slotsWithBytes verification range slots)[i]? =
      some (slots[i], c.slotBytes verification range (slots[i], i)) := by
    rw [slotsWithBytes, List.getElem?_zip_eq_some, List.getElem?_map, List.getElem?_eq_getElem hlt]
    refine ⟨rfl, ?_⟩
    rw [List.getElem?_zipIdx, List.getElem?_eq_getElem hlt]
    simp
  have hfst : ((c.limbPairs verification i slots[i].key).map Prod.fst).length = 8 := by
    rw [List.length_map, length_limbPairs]
  have hsnd : ((c.limbPairs verification i slots[i].key).map Prod.snd).length = 8 := by
    rw [List.length_map, length_limbPairs]
  obtain ⟨x, hx⟩ := c.range.cell_limbBytes range (i * slotRows) (k := k / 4) (j := k % 4) (by rw [hfst]; omega) (by omega)
  obtain ⟨y, hy⟩ := c.range.cell_limbBytes range (i * slotRows + 8 * limbRows) (k := k / 4) (j := k % 4) (by rw [hsnd]; omega)
    (by omega)
  rw [Nat.div_add_mod'] at hx hy
  have hcopy : ∀ {cell column}, (cell, column, 0 + i) ∈
      c.slotRowLinks (0 + i) (c.slotBytes verification range (slots[i], i)) →
        claim.Agrees ⟨cell, ⟨column, rowAt bridge (0 + i)⟩⟩ := by
    intro cell column hlink
    exact hagrees _ (List.mem_append_right _ (List.mem_map.mpr ⟨_, c.mem_rowsLinks 0 hslot hlink, rfl⟩))
  have hbytes : (c.slotBytes verification range (slots[i], i)).x[k]? = some _ ∧
      (c.slotBytes verification range (slots[i], i)).y[k]? = some _ := ⟨hx, hy⟩
  -- The copy constraints of the byte lead from the bridge row to its row of the range region.
  obtain ⟨hxLink, hyLink⟩ := c.mem_slotRowLinks (0 + i) hk hbytes.1 hbytes.2
  have hxByte : claim.value c.range.byte (rowAt range (i * slotRows + k / 4 * limbRows + k % 4)) =
      claim.value c.x[k] (rowAt bridge (0 + i)) := (hcopy hxLink).2.2
  have hyByte : claim.value c.range.byte (rowAt range (i * slotRows + 8 * limbRows + k / 4 * limbRows + k % 4)) =
      claim.value c.y[k] (rowAt bridge (0 + i)) := (hcopy hyLink).2.2
  have hxRow : range + (i * 80 + k / 4 * 5 + k % 4) = range + (i * 16 + k / 4) * 5 + k % 4 := by omega
  have hyRow : range + (i * 80 + 8 * 5 + k / 4 * 5 + k % 4) = range + (i * 16 + 8 + k / 4) * 5 + k % 4 := by omega
  rw [hslotRows, hlimbRows, Nat.zero_add, rowAt_eq (by omega), rowAt_eq (by omega)] at hxByte hyByte
  rw [hxRow] at hxByte
  rw [hyRow] at hyByte
  rw [hlimbRows]
  exact ⟨hxByte.symm, hyByte.symm⟩

end Copied

/-! ## The keys -/

/-- What a bridge row says of the key whose limbs stand in a row: the limbs have 32 bits, the first byte is one of the three
forms and goes with the parity of the key, and the row holds the combination of the key in this form. -/
structure HoldsKey (c : Columns) (claim : Claim) (row row' : Nat) : Prop where
  x_lt : ∀ limb ∈ Verification.limbValues c.verification.x claim row, limb < 2 ^ 32
  y_lt : ∀ limb ∈ Verification.limbValues c.verification.y claim row, limb < 2 ^ 32
  form : claim.value c.form row' = 2 ∨ claim.value c.form row' = 3 ∨ claim.value c.form row' = 4
  even : claim.value c.form row' = 2 → (c.verification.keyAt claim row).isOdd = false
  odd : claim.value c.form row' = 3 → (c.verification.keyAt claim row).isOdd = true
  combination : claim.value c.keyCombination row' = Bridge.keyCombination (c.verification.keyAt claim row)
    (claim.value c.form row' ≠ 4) (claim.value c.challenge row')

/-- The word of a coordinate has the digits for bytes. -/
theorem word_bytes_reverse {digits : List UInt8} (hlength : digits.length = 32) {n : Nat}
    (hn : n = Nat.ofDigits 256 (digits.map UInt8.toNat)) : (Word.bytes (.ofNat 256 n)).reverse = digits := by
  have hlt := WordAux.ofDigits_lt digits
  rw [hlength, ← hn] at hlt
  have hvalue : (BitVec.ofNat 256 n).toNat = n := (BitVec.toNat_ofNat _ _).trans (Nat.mod_eq_of_lt hlt)
  rw [Word.bytes_eq_reverse hlength (hvalue.trans hn), List.reverse_reverse]

section

variable (h : c.Accepted claim verification range bridge) (hcopied : c.Copied claim verification range bridge) {i : Nat}
  (hi : i < maxSignatures)
include h hcopied hi

/-- The limbs of the keys have 32 bits, and the bytes of the words they stand for fill the bridge row. -/
theorem Accepted.words :
    ((∀ limb ∈ Verification.limbValues c.verification.x claim (verification + i), limb < 2 ^ 32) ∧
      (c.rowView claim (bridge + i)).x.toList =
        (c.verification.keyAt claim (verification + i)).x.bytes.reverse.map .ofByte) ∧
    (∀ limb ∈ Verification.limbValues c.verification.y claim (verification + i), limb < 2 ^ 32) ∧
      (c.rowView claim (bridge + i)).y.toList =
        (c.verification.keyAt claim (verification + i)).y.bytes.reverse.map .ofByte := by
  have hlast : i * 16 + 8 + 8 ≤ maxSignatures * 16 := by
    rw [Nat.add_assoc, ← Nat.succ_mul]
    exact Nat.mul_le_mul_right 16 hi
  obtain ⟨xs, hxsLength, hxs, hxLimbs, hx⟩ := h.coordinate (Nat.le_trans (Nat.le_add_right _ 8) hlast)
    (fun k hk => (hcopied.limb hi hk).1) fun k hk => (hcopied.byte hi hk).1
  obtain ⟨ys, hysLength, hys, hyLimbs, hy⟩ := h.coordinate hlast (fun k hk => (hcopied.limb hi hk).2)
    fun k hk => (hcopied.byte hi hk).2
  have hxKey : (c.verification.keyAt claim (verification + i)).x.bytes.reverse = xs := word_bytes_reverse hxsLength hx
  have hyKey : (c.verification.keyAt claim (verification + i)).y.bytes.reverse = ys := word_bytes_reverse hysLength hy
  refine ⟨⟨hxLimbs, ?_⟩, hyLimbs, ?_⟩
  · rw [hxKey, ← hxs]
    exact Vector.toList_map
  · rw [hyKey, ← hys]
    exact Vector.toList_map

/-- A short form in a bridge row goes with the parity of its key. -/
theorem Accepted.isOdd :
    (claim.value c.form (bridge + i) = 2 → (c.verification.keyAt claim (verification + i)).isOdd = false) ∧
      (claim.value c.form (bridge + i) = 3 → (c.verification.keyAt claim (verification + i)).isOdd = true) := by
  obtain ⟨byte, hbyte, heven, hodd⟩ := h.parity hi
  have hfirst : claim.value c.y[0] (bridge + i) =
      .ofByte ((c.verification.keyAt claim (verification + i)).y.byteAt 0) := by
    have hview : (c.rowView claim (bridge + i)).y.toList[0]? = some (claim.value c.y[0] (bridge + i)) := by
      simp [rowView, view]
    have hbytes : ((c.verification.keyAt claim (verification + i)).y.bytes.reverse.map Felt.ofByte)[0]? =
        some (.ofByte ((c.verification.keyAt claim (verification + i)).y.byteAt 0)) := by
      rw [Word.bytes_reverse]
      rfl
    exact Option.some.inj (hview.symm.trans ((congrArg (·[0]?) (h.words hcopied hi).2.2).trans hbytes))
  obtain rfl := Felt.ofByte_inj.mp (hbyte.symm.trans hfirst)
  rw [PublicKey.isOdd, ← Word.byteAt_zero_parity]
  constructor
  · intro htwo
    rw [heven htwo]
    rfl
  · intro hthree
    rw [hodd hthree]
    rfl

/-- The form in a bridge row is that of its key. -/
theorem Accepted.form : claim.value c.form (bridge + i) =
    .ofByte ((c.verification.keyAt claim (verification + i)).form (claim.value c.form (bridge + i) ≠ 4)) := by
  obtain ⟨heven, hodd⟩ := h.isOdd hcopied hi
  rcases (h.slotStep hi).form with htwo | hthree | hfour
  · have htwo : claim.value c.form (bridge + i) = 2 := htwo
    rw [htwo, decide_eq_true (by decide), PublicKey.form, if_pos rfl, heven htwo]
    rfl
  · have hthree : claim.value c.form (bridge + i) = 3 := hthree
    rw [hthree, decide_eq_true (by decide), PublicKey.form, if_pos rfl, hodd hthree]
    rfl
  · have hfour : claim.value c.form (bridge + i) = 4 := hfour
    rw [hfour, decide_eq_false (not_not_intro rfl)]
    rfl

/-- Every slot of an accepted bridge holds its key. -/
theorem Accepted.holdsKey : c.HoldsKey claim (verification + i) (bridge + i) := by
  have hstep := h.slotStep hi
  obtain ⟨⟨hxLimbs, hx⟩, hyLimbs, hy⟩ := h.words hcopied hi
  obtain ⟨heven, hodd⟩ := h.isOdd hcopied hi
  have hcombination : claim.value c.keyCombination (bridge + i) = (c.rowView claim (bridge + i)).combination :=
    hstep.combination
  exact ⟨hxLimbs, hyLimbs, hstep.form, heven, hodd,
    hcombination.trans (View.combination_of_key rfl (h.form hcopied hi) hx hy)⟩

end

end Columns

end Bridge

end ScriptCircuit
