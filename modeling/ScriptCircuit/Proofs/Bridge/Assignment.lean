import Mathlib
import ScriptCircuit.Proofs.Bridge.Keys
import ScriptCircuit.Proofs.Bridge.Unique

/-!
# What the advice columns of a bridge hold

Every cell that the synthesis of the bridge writes holds what was written, so its copy constraints agree. The running sums
hold the limbs of the keys and what is left of them byte by byte, and every bridge row shows its slot.
-/

namespace ScriptCircuit

/-- Limb `k` of both coordinates of a key, those of the first one before those of the second. -/
def PublicKey.limb (key : PublicKey) (k : Nat) : Nat :=
  if k < 8 then key.x.limb k else key.y.limb (k - 8)

/-- The limbs of a key have 32 bits. -/
theorem PublicKey.limb_lt (key : PublicKey) (k : Nat) : key.limb k < 2 ^ 32 := by
  unfold limb
  split
  · exact Word.limb_lt _ _
  · exact Word.limb_lt _ _

namespace ByteRange

variable {b : ByteRange}

/-- A limb is copied to the cell that starts its decomposition. -/
theorem limbLinks_target {offset : Nat} {limbs : List AssignedCell} {x : Cell × Column × Nat}
    (h : x ∈ b.limbLinks offset limbs) :
    ∃ limb ∈ limbs, x.1 = limb.cell ∧ (x.2.1, x.2.2, limb.value) ∈ b.limbCells offset limbs := by
  obtain ⟨k, limb, hlimb, rfl⟩ := mem_limbLinks.mp h
  exact ⟨limb, List.mem_of_getElem? hlimb, rfl, mem_limbCells.mpr ⟨k, limb, hlimb, List.mem_cons_self⟩⟩

/-- The byte cells of limbs are written by their decompositions. -/
theorem limbBytes_written {start offset : Nat} {limbs : List AssignedCell} {byte : AssignedCell}
    (h : byte ∈ b.limbBytes start offset limbs) :
    (byte.cell.column, byte.cell.row, byte.value) ∈ placed start (b.limbCells offset limbs) := by
  obtain ⟨k, limb, hlimb, hbyte⟩ := mem_limbBytes.mp h
  obtain ⟨offset', hmem, hrow⟩ := mem_placed.mp (bytesFrom_written hbyte)
  exact mem_placed.mpr ⟨offset', mem_limbCells.mpr ⟨k, limb, hlimb, List.mem_cons_of_mem _ hmem⟩, hrow⟩

end ByteRange

namespace Verification

/-- The cell of a limb is written by its row. -/
theorem limbsAt_written {block : Vector Column 8} {start offset : Nat} {w : Word} {limb : AssignedCell}
    (h : limb ∈ limbsAt block start offset w) :
    (limb.cell.column, limb.cell.row, limb.value) ∈ placed start (limbCells block offset w) := by
  obtain ⟨pair, hpair, rfl⟩ := List.mem_map.mp h
  exact mem_placed.mpr ⟨offset, List.mem_map.mpr ⟨pair, hpair, rfl⟩, rfl⟩

end Verification

namespace Bridge

/-- A view shows a slot, in a row with a challenge, a count and an accumulator. -/
structure View.Shows (v : View) (r : Felt) (count : Nat) (acc : Felt) (slot : Slot) : Prop where
  challenge : v.challenge = r
  powers : ∀ k (h : k < 64), v.powers[k] = r ^ (k + 1)
  checks : v.checks = .ofNat count
  keyAcc : v.keyAcc = acc
  keyCombination : v.keyCombination = slot.combination r
  form : v.form = .ofByte slot.form
  x : ∀ k (h : k < 32), v.x[k] = .ofByte (slot.key.x.byteAt k)
  y : ∀ k (h : k < 32), v.y[k] = .ofByte (slot.key.y.byteAt k)

namespace Columns

/-- Every limb of a key is decomposed. -/
theorem sumCells_subset_keyCells (c : Columns) (start i : Nat) (key : PublicKey) {k : Nat} (hk : k < 16) :
    ∃ source : AssignedCell, source.value = .ofNat (key.limb k) ∧
      c.range.sumCells (i * slotRows + k * limbRows) source 32 ⊆ c.keyCells (i * slotRows) (c.limbPairs start i key) := by
  by_cases hx : k < 8
  · have hlimb := Verification.getElem?_limbsAt c.verification.x start i key.x hx
    rw [← map_fst_limbPairs] at hlimb
    refine ⟨_, ?_, fun x hmem => mem_keyCells.mpr (.inl (ByteRange.mem_limbCells.mpr ⟨k, _, hlimb, hmem⟩))⟩
    rw [PublicKey.limb, if_pos hx]
  · have hlimb := Verification.getElem?_limbsAt c.verification.y start i key.y (k := k - 8) (by omega)
    have hrow : i * slotRows + k * limbRows = i * slotRows + 8 * limbRows + (k - 8) * limbRows := by
      rw [Nat.add_assoc, ← Nat.add_mul, Nat.add_sub_cancel' (Nat.le_of_not_lt hx)]
    rw [← map_snd_limbPairs (c := c)] at hlimb
    rw [hrow]
    refine ⟨_, ?_, fun x hmem =>
      mem_keyCells.mpr (.inr (ByteRange.mem_limbCells.mpr ⟨k - 8, _, hlimb, hmem⟩))⟩
    rw [PublicKey.limb, if_neg hx]

/-- The bridge rows behind some slots are among all of them. -/
theorem rowsCells_drop_subset (c : Columns) (r : Felt) (row count : Nat) {slots : List (Slot × KeyBytes)} (accs : List Felt)
    {i : Nat} (h : i ≤ slots.length) :
    c.rowsCells r (row + i) (count - i) (slots.drop i) (accs.drop i) ⊆ c.rowsCells r row count slots accs := by
  induction i generalizing row count slots accs with
  | zero => exact List.Subset.refl _
  | succ i ih =>
    cases slots with
    | nil => cases h
    | cons slot slots =>
      have hrest := ih (row + 1) (count - 1) accs.tail (Nat.le_of_succ_le_succ h)
      rw [Nat.add_right_comm, Nat.sub_sub, Nat.add_comm 1, List.drop_tail] at hrest
      exact fun x hx => List.mem_append_right _ (List.mem_append_right _ (hrest hx))

/-- The first accumulator behind some slots. -/
theorem headD_drop (accs : List Felt) (i : Nat) : (accs.drop i).headD 0 = accs.getD i 0 := by
  rw [List.headD_eq_head?_getD, List.head?_drop, List.getD_eq_getElem?_getD]

/-- The row of a slot is one of the bridge rows. -/
theorem slotRow_subset (c : Columns) (r : Felt) (row count : Nat) {slots : List (Slot × KeyBytes)} (accs : List Felt)
    {i : Nat} {slot : Slot} {bytes : KeyBytes} (h : slots[i]? = some (slot, bytes)) :
    c.accumulatorCells (row + i) r (count - i) (accs.getD i 0) ++ c.slotRowCells (row + i) r (count - i) slot bytes ⊆
      c.rowsCells r row count slots accs := by
  obtain ⟨hlt, hslot⟩ := List.getElem?_eq_some_iff.mp h
  have hrows := c.rowsCells_drop_subset r row count accs (Nat.le_of_lt hlt)
  rw [List.drop_eq_getElem_cons hlt, hslot, rowsCells, headD_drop, ← List.append_assoc] at hrows
  exact (List.append_subset.mp hrows).1

/-- The row behind the slots is one of the bridge rows. -/
theorem lastRow_subset (c : Columns) (r : Felt) (row count : Nat) (slots : List (Slot × KeyBytes)) (accs : List Felt) :
    c.accumulatorCells (row + slots.length) r (count - slots.length) (accs.getD slots.length 0) ⊆
      c.rowsCells r row count slots accs := by
  have hrows := c.rowsCells_drop_subset r row count accs (Nat.le_refl slots.length)
  rw [List.drop_length, rowsCells, headD_drop] at hrows
  exact (List.append_subset.mp hrows).1

/-- A byte is copied to the cell of its bridge row. -/
theorem rowsLinks_target {c : Columns} (r : Felt) {row : Nat} (count : Nat) {slots : List (Slot × KeyBytes)}
    (accs : List Felt) {x : Cell × Column × Nat} (h : x ∈ c.rowsLinks row slots) :
    ∃ slot ∈ slots, ∃ byte ∈ slot.2.x ++ slot.2.y, x.1 = byte.cell ∧
      (x.2.1, x.2.2, byte.value) ∈ c.rowsCells r row count slots accs := by
  induction slots generalizing row count accs with
  | nil => cases h
  | cons slot slots ih =>
    rcases List.mem_append.mp h with h | h
    · obtain ⟨pair, hpair, hlink⟩ := List.mem_flatMap.mp h
      have hbytes := List.of_mem_zip (List.of_mem_zip hpair).2
      have hcells : ∀ x ∈ [(pair.1.1, row, pair.2.1.value), (pair.1.2, row, pair.2.2.value)],
          x ∈ c.rowsCells r row count (slot :: slots) accs := by
        intro x hx
        refine List.mem_append_right _ (List.mem_append_left _ (List.mem_cons_of_mem _ (List.mem_append_right _ ?_)))
        exact List.mem_cons_of_mem _ (List.mem_cons_of_mem _ (List.mem_cons_of_mem _ (List.mem_flatMap.mpr ⟨pair, hpair, hx⟩)))
      simp only [List.mem_cons, List.not_mem_nil, or_false] at hlink
      rcases hlink with rfl | rfl
      · exact ⟨slot, List.mem_cons_self, _, List.mem_append_left _ hbytes.1, rfl, hcells _ (by simp)⟩
      · exact ⟨slot, List.mem_cons_self, _, List.mem_append_right _ hbytes.2, rfl, hcells _ (by simp)⟩
    · obtain ⟨other, hmem, byte, hbyte, hcell, htarget⟩ := ih (count - 1) accs.tail h
      exact ⟨other, List.mem_cons_of_mem _ hmem, byte, hbyte, hcell,
        List.mem_append_right _ (List.mem_append_right _ htarget)⟩

/-- The columns of a claim hold a bridge over slots whose regions start at given rows. -/
structure Filled (c : Columns) (claim : Claim) (verification range bridge : Nat) (r : Felt) (slots : List Slot)
    (count : Nat) : Prop where
  placed : c.Placed claim verification range bridge
  full : slots.length = maxSignatures
  size : claim.rows ≤ UInt64.size
  holds : ∀ x ∈ c.bridgeCells verification range bridge r slots count, claim.Holds x

variable {c : Columns} {claim : Claim} {verification range bridge : Nat} {r : Felt} {slots : List Slot} {count : Nat}

/-- A claim about a matrix into which a bridge is written has the bridge in its columns. -/
theorem Proper.filled {sys : System} (hc : c.Proper sys) {cells : List (Column × Nat × Felt)} {rows : Nat}
    (hw : c.Writes cells verification range bridge r slots count) (hslots : slots.length = maxSignatures)
    (hrange : verification + maxSignatures ≤ range) (hbridge : range + maxSignatures * slotRows ≤ bridge)
    (hrows : bridge + (maxSignatures + 1) ≤ rows) (hsize : rows ≤ UInt64.size)
    (hmatrix : claim.witness.matrix = (Matrix.zero sys rows).writeAll cells) :
    c.Filled claim verification range bridge r slots count := by
  have hheight : claim.rows = rows := by
    rw [Claim.rows, hmatrix, Matrix.rows_writeAll]
    rfl
  have hend : bridge + (maxSignatures + 1) ≤ UInt64.size := Nat.le_trans hrows hsize
  have hunique : Unique (c.bridgeCells verification range bridge r slots count) :=
    Proper.unique_bridgeCells hrange hbridge hend hslots hc
  refine ⟨?_, hslots, hheight ▸ hsize, fun x hx => ?_⟩
  · refine hc.placed hw hslots (by omega) (by omega) hrows hsize hheight fun column row hkind => ?_
    rw [Claim.value, if_neg (by rw [hkind]; decide), hmatrix]
  · have hcolumn := bridgeCells_column hx
    have hwrites : ∀ row value, (x.1, row, value) ∈ cells ↔
        (x.1, row, value) ∈ c.bridgeCells verification range bridge r slots count := by
      intro row value
      have hall : x.1 ∈ c.adviceColumns ++ (c.markColumns ++ c.tableColumns) := by
        rw [← List.append_assoc]
        exact List.mem_append_left _ hcolumn
      rw [hw x.1 hall row value, or_iff_right]
      intro htable
      have hmem := (tableCells_bounds htable).1
      rcases List.mem_append.mp hcolumn with h | h
      · exact hc.not_advice (List.mem_append_right _ hmem) h
      · exact hc.mark_notMem_table h hmem
    refine Claim.holds_of_mem hmatrix ((hwrites _ _).mpr hx) ?_ ?_ ?_
    · exact hc.inMatrix rows x.1 hcolumn
    · exact Nat.lt_of_lt_of_le (row_lt_of_mem_bridgeCells hrange hbridge hend hslots hx) hrows
    · rintro ⟨column, row, value⟩ hy rfl rfl
      exact hunique _ ((hwrites _ _).mp hy) _ hx rfl rfl

namespace Filled

variable (h : c.Filled claim verification range bridge r slots count)
include h

/-! ## The cells -/

/-- What the row of a verified signature holds. -/
theorem row_holds {i : Nat} {slot : Slot} (hslot : slots[i]? = some slot) {x : Column × Nat × Felt}
    (hx : x ∈ c.verification.rowCells i slot.signature slot.key) :
    claim.Holds (x.1, rowAt verification x.2.1, x.2.2) := by
  refine h.holds _ (List.mem_append_left _ (List.mem_flatMap.mpr ⟨(slot, i), ?_, List.mem_append_left _ ?_⟩))
  · exact List.mem_zipIdx_iff_getElem?.mpr hslot
  · exact List.mem_map.mpr ⟨x, hx, rfl⟩

/-- What the decompositions of a key hold. -/
theorem key_holds {i : Nat} {slot : Slot} (hslot : slots[i]? = some slot) {x : Column × Nat × Felt}
    (hx : x ∈ c.keyCells (i * slotRows) (c.limbPairs verification i slot.key)) :
    claim.Holds (x.1, rowAt range x.2.1, x.2.2) := by
  refine h.holds _ (List.mem_append_left _ (List.mem_flatMap.mpr ⟨(slot, i), ?_, List.mem_append_right _ ?_⟩))
  · exact List.mem_zipIdx_iff_getElem?.mpr hslot
  · exact List.mem_map.mpr ⟨x, hx, rfl⟩

/-- What the bridge rows hold. -/
theorem rows_hold {x : Column × Nat × Felt}
    (hx : x ∈ c.rowsCells r 0 count (c.slotsWithBytes verification range slots) (accumulators r slots count)) :
    claim.Holds (x.1, rowAt bridge x.2.1, x.2.2) :=
  h.holds _ (List.mem_append_right _ (List.mem_map.mpr ⟨x, hx, rfl⟩))

/-! ## The copy constraints -/

/-- The cell of a limb holds it. -/
theorem limb_holds {i : Nat} {slot : Slot} (hslot : slots[i]? = some slot) {limb : AssignedCell}
    (hlimb : limb ∈ Verification.limbsAt c.verification.x verification i slot.key.x ++
      Verification.limbsAt c.verification.y verification i slot.key.y) :
    claim.Holds (limb.cell.column, limb.cell.row, limb.value) := by
  rcases List.mem_append.mp hlimb with hlimb | hlimb
  · obtain ⟨offset, hmem, hrow⟩ := mem_placed.mp (Verification.limbsAt_written hlimb)
    rw [hrow]
    exact h.row_holds (x := (limb.cell.column, offset, limb.value)) hslot (by simp [Verification.rowCells, hmem])
  · obtain ⟨offset, hmem, hrow⟩ := mem_placed.mp (Verification.limbsAt_written hlimb)
    rw [hrow]
    exact h.row_holds (x := (limb.cell.column, offset, limb.value)) hslot (by simp [Verification.rowCells, hmem])

/-- The cell of a byte holds it. -/
theorem byte_holds {i : Nat} {slot : Slot} (hslot : slots[i]? = some slot) {byte : AssignedCell}
    (hbyte : byte ∈ (c.slotBytes verification range (slot, i)).x ++ (c.slotBytes verification range (slot, i)).y) :
    claim.Holds (byte.cell.column, byte.cell.row, byte.value) := by
  rcases List.mem_append.mp hbyte with hbyte | hbyte
  · obtain ⟨offset, hmem, hrow⟩ := mem_placed.mp (ByteRange.limbBytes_written hbyte)
    rw [hrow]
    exact h.key_holds (x := (byte.cell.column, offset, byte.value)) hslot (mem_keyCells.mpr (.inl hmem))
  · obtain ⟨offset, hmem, hrow⟩ := mem_placed.mp (ByteRange.limbBytes_written hbyte)
    rw [hrow]
    exact h.key_holds (x := (byte.cell.column, offset, byte.value)) hslot (mem_keyCells.mpr (.inr hmem))

/-- The copy constraints of a slot hold. -/
theorem slotCopies_agree {i : Nat} {slot : Slot} (hslot : slots[i]? = some slot) :
    ∀ copy ∈ c.slotCopies verification range (slot, i), claim.Agrees copy := by
  intro copy hcopy
  obtain ⟨link, hlink, rfl⟩ := List.mem_map.mp hcopy
  have htarget : ∃ limb, limb ∈ Verification.limbsAt c.verification.x verification i slot.key.x ++
      Verification.limbsAt c.verification.y verification i slot.key.y ∧ link.1 = limb.cell ∧
      (link.2.1, link.2.2, limb.value) ∈ c.keyCells (i * slotRows) (c.limbPairs verification i slot.key) := by
    rcases mem_keyLinks.mp hlink with hlink | hlink
    · obtain ⟨limb, hlimb, hcell, hmem⟩ := ByteRange.limbLinks_target hlink
      rw [map_fst_limbPairs] at hlimb
      exact ⟨limb, List.mem_append_left _ hlimb, hcell, mem_keyCells.mpr (.inl hmem)⟩
    · obtain ⟨limb, hlimb, hcell, hmem⟩ := ByteRange.limbLinks_target hlink
      rw [map_snd_limbPairs] at hlimb
      exact ⟨limb, List.mem_append_right _ hlimb, hcell, mem_keyCells.mpr (.inr hmem)⟩
  obtain ⟨limb, hlimb, hcell, hmem⟩ := htarget
  change claim.Agrees ⟨link.1, ⟨link.2.1, rowAt range link.2.2⟩⟩
  rw [hcell]
  exact (h.limb_holds hslot hlimb).agrees (h.key_holds hslot hmem)

/-- The copy constraints of the bridge agree. -/
theorem agrees : ∀ copy ∈ c.bridgeCopies verification range bridge slots, claim.Agrees copy := by
  intro copy hcopy
  rcases List.mem_append.mp hcopy with hcopy | hcopy
  · obtain ⟨⟨slot, i⟩, hslot, hcopy⟩ := List.mem_flatMap.mp hcopy
    exact h.slotCopies_agree (List.mem_zipIdx_iff_getElem?.mp hslot) copy hcopy
  · obtain ⟨link, hlink, rfl⟩ := List.mem_map.mp hcopy
    obtain ⟨⟨slot, bytes⟩, hmem, byte, hbyte, hcell, htarget⟩ := rowsLinks_target r count (accumulators r slots count) hlink
    obtain ⟨⟨other, i⟩, hother, rfl⟩ := List.mem_map.mp (List.of_mem_zip hmem).2
    change claim.Agrees ⟨link.1, ⟨link.2.1, rowAt bridge link.2.2⟩⟩
    rw [hcell]
    exact (h.byte_holds (List.mem_zipIdx_iff_getElem?.mp hother) hbyte).agrees (h.rows_hold htarget)

/-- The copy constraints of a filled bridge are those of a bridge over slots. -/
theorem copied : c.Copied claim verification range bridge where
  verification_lt := Nat.le_trans h.placed.verification_le h.size
  range_lt := Nat.le_trans h.placed.range_le h.size
  bridge_lt := Nat.le_trans (Nat.le_of_succ_le h.placed.bridge_le) h.size
  agrees := ⟨slots, h.full, h.agrees⟩

/-! ## The decompositions -/

/-- There are no more slots than the circuit has. -/
theorem lt_of_slot {i : Nat} {slot : Slot} (hslot : slots[i]? = some slot) : i < maxSignatures := by
  rw [← h.full]
  exact (List.getElem?_eq_some_iff.mp hslot).1

/-- The decomposition of limb `k` of a key: its bytes, and what is left of it row by row. -/
theorem decomposition {i k : Nat} {slot : Slot} (hslot : slots[i]? = some slot) (hk : k < 16) :
    (∀ j, j < 4 → claim.value c.range.byte (range + (i * 16 + k) * limbRows + j) =
        .ofNat (slot.key.limb k / 256 ^ j % 256)) ∧
      ∀ j, j ≤ 4 → claim.value c.range.runningSum (range + (i * 16 + k) * limbRows + j) =
        .ofNat (slot.key.limb k / 256 ^ j) := by
  obtain ⟨source, hvalue, hsub⟩ := c.sumCells_subset_keyCells verification i slot.key hk
  have hlimb : source.value.toNat = slot.key.limb k := by
    rw [hvalue, Felt.ofNat_eq, Felt.toNat_natCast_of_lt (Nat.lt_trans (slot.key.limb_lt k) (by decide))]
  have hcell : ∀ {column j x}, j ≤ 4 → (column, i * slotRows + k * limbRows + j, x) ∈
      c.range.sumCells (i * slotRows + k * limbRows) source 32 →
        claim.value column (range + (i * 16 + k) * limbRows + j) = x := by
    intro column j x hj hmem
    have hheld := (h.key_holds hslot (hsub hmem)).2
    have hi : i < 4 := h.lt_of_slot hslot
    have hend := Nat.le_trans h.placed.range_le h.size
    have hrows : slotRows = 80 := rfl
    have hlimbRows : limbRows = 5 := rfl
    have hmax : maxSignatures = 4 := rfl
    have hrow : range + (i * 80 + k * 5 + j) = range + (i * 16 + k) * 5 + j := by omega
    dsimp only at hheld
    rw [hmax, hrows] at hend
    rw [rowAt_eq (by rw [hrows, hlimbRows]; omega), hrows, hlimbRows, hrow] at hheld
    rw [hlimbRows]
    exact hheld
  constructor
  · intro j hj
    refine hcell (Nat.le_of_lt hj) (List.mem_cons_of_mem _ ?_)
    rw [← hlimb]
    exact (c.range.mem_byteCells (i * slotRows + k * limbRows) source.value.toNat hj).1
  · intro j hj
    cases j with
    | zero =>
      refine hcell hj ?_
      rw [pow_zero, Nat.div_one, ← hvalue]
      exact List.mem_cons_self
    | succ j =>
      refine hcell hj (List.mem_cons_of_mem _ ?_)
      rw [← hlimb]
      exact (c.range.mem_byteCells (i * slotRows + k * limbRows) source.value.toNat hj).2

/-! ## The rows -/

/-- The row of a slot says that its signature verifies. -/
theorem verified_value {i : Nat} {slot : Slot} (hslot : slots[i]? = some slot) :
    claim.value c.verification.verified (verification + i) = 1 := by
  have hheld := (h.row_holds (x := (c.verification.verified, i, 1)) hslot (by simp [Verification.rowCells])).2
  have hlt := Nat.lt_of_lt_of_le (Nat.add_lt_add_left (h.lt_of_slot hslot) verification)
    (Nat.le_trans h.placed.verification_le h.size)
  rw [rowAt_eq hlt] at hheld
  exact hheld

/-- A cell of the bridge rows, by its row. -/
theorem row_value {i : Nat} (hi : i ≤ maxSignatures) {column : Column} {x : Felt} (hmem : (column, 0 + i, x) ∈
    c.rowsCells r 0 count (c.slotsWithBytes verification range slots) (accumulators r slots count)) :
    claim.value column (bridge + i) = x := by
  have hheld := (h.rows_hold hmem).2
  have hlt := Nat.lt_of_lt_of_le (Nat.add_lt_add_left (Nat.lt_succ_of_le hi) bridge)
    (Nat.le_trans h.placed.bridge_le h.size)
  rw [Nat.zero_add, rowAt_eq hlt] at hheld
  exact hheld

/-- A cell of the row of a slot. -/
theorem slot_value {i : Nat} {slot : Slot} (hslot : slots[i]? = some slot) {column : Column} {x : Felt}
    (hmem : (column, 0 + i, x) ∈ c.accumulatorCells (0 + i) r (count - i) ((accumulators r slots count).getD i 0) ++
      c.slotRowCells (0 + i) r (count - i) slot (c.slotBytes verification range (slot, i))) :
    claim.value column (bridge + i) = x := by
  have hrow : (c.slotsWithBytes verification range slots)[i]? =
      some (slot, c.slotBytes verification range (slot, i)) := by
    rw [slotsWithBytes, List.getElem?_zip_eq_some, List.getElem?_map, List.getElem?_zipIdx, hslot]
    simp
  exact h.row_value (Nat.le_of_lt (h.lt_of_slot hslot)) (c.slotRow_subset r 0 count _ hrow hmem)

/-- The inverse of the count stands under the zero test. -/
theorem inverse_value {i : Nat} {slot : Slot} (hslot : slots[i]? = some slot) :
    claim.value c.checksInverse (bridge + i) = (Felt.ofNat (count - i)).inv :=
  h.slot_value hslot (by simp [slotRowCells])

/-- Every bridge row shows its slot. -/
theorem shows {i : Nat} {slot : Slot} (hslot : slots[i]? = some slot) :
    (c.rowView claim (bridge + i)).Shows r (count - i) ((accumulators r slots count).getD i 0) slot := by
  have hi := h.lt_of_slot hslot
  have hpower : ∀ k (hk : k < 64), (c.powers[k], r ^ (k + 1)) ∈ c.powers.toList.zip ((Combination.powers r 64).drop 1) := by
    intro k hk
    refine List.mem_iff_getElem?.mpr ⟨k, List.getElem?_zip_eq_some.mpr ⟨?_, ?_⟩⟩
    · rw [Vector.getElem?_toList, Vector.getElem?_eq_getElem hk]
    · rw [List.getElem?_drop, Combination.getElem?_powers r (by omega), Nat.add_comm]
  exact
    { challenge := h.slot_value hslot (by simp [accumulatorCells])
      powers := by
        intro k hk
        refine (Vector.getElem_map _ hk).trans (h.slot_value hslot (List.mem_append_right _ ?_))
        exact List.mem_cons_of_mem _ (List.mem_append_left _ (mem_cellsAt.mpr ⟨rfl, hpower k hk⟩))
      checks := h.slot_value hslot (by simp [accumulatorCells])
      keyAcc := h.slot_value hslot (by simp [accumulatorCells])
      keyCombination := h.slot_value hslot (by simp [slotRowCells])
      form := h.slot_value hslot (by simp [slotRowCells])
      x := by
        intro k hk
        refine (Vector.getElem_map _ hk).trans ((h.copied.byte hi hk).1.trans ?_)
        rw [(h.decomposition hslot (k := k / 4) (by omega)).1 (k % 4) (Nat.mod_lt _ (by decide)), PublicKey.limb,
          if_pos (by omega), Word.limb_byte, Felt.ofByte_eq]
        rfl
      y := by
        intro k hk
        have hlimb : i * 16 + 8 + k / 4 = i * 16 + (8 + k / 4) := Nat.add_assoc ..
        refine (Vector.getElem_map _ hk).trans ((h.copied.byte hi hk).2.trans ?_)
        rw [hlimb, (h.decomposition hslot (k := 8 + k / 4) (by omega)).1 (k % 4) (Nat.mod_lt _ (by decide)), PublicKey.limb,
          if_neg (by omega), Nat.add_sub_cancel_left, Word.limb_byte, Felt.ofByte_eq]
        rfl }

/-- The row behind the slots holds what is left of the count and of the accumulators. -/
theorem last_value : claim.value c.checks (bridge + maxSignatures) = .ofNat (count - maxSignatures) ∧
    claim.value c.keyAcc (bridge + maxSignatures) = (accumulators r slots count).getD maxSignatures 0 ∧
    claim.value c.challenge (bridge + maxSignatures) = r := by
  have hlength : (c.slotsWithBytes verification range slots).length = maxSignatures := by
    rw [length_slotsWithBytes, h.full]
  have hsub := c.lastRow_subset r 0 count (c.slotsWithBytes verification range slots) (accumulators r slots count)
  rw [hlength] at hsub
  have hcell : ∀ {column x}, (column, 0 + maxSignatures, x) ∈ c.accumulatorCells (0 + maxSignatures) r
      (count - maxSignatures) ((accumulators r slots count).getD maxSignatures 0) →
      claim.value column (bridge + maxSignatures) = x := fun hmem => h.row_value (Nat.le_refl _) (hsub hmem)
  exact ⟨hcell (by simp [accumulatorCells]), hcell (by simp [accumulatorCells]), hcell (by simp [accumulatorCells])⟩

end Filled

end Columns

end Bridge

end ScriptCircuit
