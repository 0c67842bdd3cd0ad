import Mathlib
import ScriptCircuit.Proofs.Bridge.Layout
import ScriptCircuit.Proofs.Plonk.Satisfied

/-!
# What the fixed columns of the signature bridge hold

Every fixed column that switches a gate on is one on the rows of its region and zero elsewhere, and the table columns hold
the bytes and the parities over zeros. Overwriting advice does not reach them.
-/

namespace ScriptCircuit.Bridge.Columns

/-- Cells that, in the columns of the bridge, are those of its tables and of a bridge over slots. -/
def Writes (c : Columns) (cells : List (Column × Nat × Felt)) (verification range bridge : Nat) (r : Felt)
    (slots : List Slot) (count : Nat) : Prop :=
  ∀ column ∈ c.adviceColumns ++ (c.markColumns ++ c.tableColumns), ∀ row x, (column, row, x) ∈ cells ↔
    (column, row, x) ∈ c.tableCells ∨ (column, row, x) ∈ c.bridgeCells verification range bridge r slots count

/-- The bytes in a row of the parity table; the rows behind it are zero. -/
def parityRow (row : Nat) : UInt8 × UInt8 :=
  ParityTable.rows.getD row (0, 0)

/-- The fixed columns of a claim mark the regions of a bridge that start at given rows, and hold its tables. -/
structure Placed (c : Columns) (claim : Claim) (verification range bridge : Nat) : Prop where
  verification_le : verification + maxSignatures ≤ claim.rows
  range_le : range + maxSignatures * slotRows ≤ claim.rows
  bridge_le : bridge + (maxSignatures + 1) ≤ claim.rows
  enable : ∀ row, row < claim.rows → claim.value c.verification.enable row =
    if verification ≤ row ∧ row < verification + maxSignatures then 1 else 0
  step : ∀ row, row < claim.rows → claim.value c.range.step row =
    if ByteRange.AtByte range (maxSignatures * 16) row then 1 else 0
  stop : ∀ row, row < claim.rows → claim.value c.range.stop row =
    if ByteRange.AtEnd range (maxSignatures * 16) row then 1 else 0
  slot : ∀ row, row < claim.rows → claim.value c.isSlot row =
    if bridge ≤ row ∧ row < bridge + maxSignatures then 1 else 0
  last : ∀ row, row < claim.rows → claim.value c.isEnd row = if row = bridge + maxSignatures then 1 else 0
  bytes : ∀ row, row < claim.rows → claim.value c.range.table row = if row < ByteRange.tableSize then .ofNat row else 0
  parity : ∀ row, row < claim.rows → claim.value c.parity.form row = .ofByte (parityRow row).1 ∧
    claim.value c.parity.byte row = .ofByte (parityRow row).2

/-- The cells of a bridge lie in its advice columns and in those that mark rows. -/
theorem bridgeCells_column {c : Columns} {verification range bridge : Nat} {r : Felt} {slots : List Slot}
    {count : Nat} {x : Column × Nat × Felt} (h : x ∈ c.bridgeCells verification range bridge r slots count) :
    x.1 ∈ c.adviceColumns ++ c.markColumns := by
  have hplaced : ∀ {start cells}, x ∈ placed start cells → ∃ y ∈ cells, x.1 = y.1 := by
    intro start cells hx
    obtain ⟨y, hy, rfl⟩ := List.mem_map.mp hx
    exact ⟨y, hy, rfl⟩
  rcases List.mem_append.mp h with hslot | hrow
  · obtain ⟨slot, -, hslot⟩ := List.mem_flatMap.mp hslot
    rcases List.mem_append.mp hslot with hslot | hslot
    · obtain ⟨y, hy, hcolumn⟩ := hplaced hslot
      rw [hcolumn]
      rcases (Verification.rowCells_bounds hy).1 with hadvice | ⟨henable, -⟩
      · exact List.mem_append_left _ (List.mem_append_left _ hadvice)
      · simp [henable, markColumns]
    · obtain ⟨y, hy, hcolumn⟩ := hplaced hslot
      rw [hcolumn]
      rcases (keyCells_bounds (length_limbPairs ..) hy).1 with (h | h) | ⟨h | h, -⟩ <;> simp [h, adviceColumns, markColumns]
  · obtain ⟨y, hy, hcolumn⟩ := hplaced hrow
    rw [hcolumn]
    rcases (rowsCells_bounds hy).1 with hadvice | ⟨h | h, -⟩
    · exact List.mem_append_left _ hadvice
    · simp [h, markColumns]
    · simp [h, markColumns]

variable {c : Columns} {sys : System} (hc : c.Proper sys)
include hc

/-! ## The columns -/

/-- The fixed columns are no advice columns. -/
theorem Proper.not_advice {column : Column} (h : column ∈ c.markColumns ++ c.tableColumns) : column ∉ c.adviceColumns := by
  intro hadvice
  have hfixed := (hc.fixed_kind column h).1
  rw [(hc.advice_kind column hadvice).1] at hfixed
  cases hfixed

/-- The fixed columns are told apart by their places. -/
theorem Proper.fixed_ne (i j : Fin 8) (h : i ≠ j) :
    (c.markColumns ++ c.tableColumns).get i ≠ (c.markColumns ++ c.tableColumns).get j := fun heq =>
  h (hc.fixed_nodup.injective_get heq)

theorem Proper.mark_notMem_table {column : Column} (h : column ∈ c.markColumns) : column ∉ c.tableColumns := fun htable =>
  (List.nodup_append.mp hc.fixed_nodup).2.2 column h column htable rfl

/-! ## The marks -/

variable {verification range bridge : Nat} {r : Felt} {slots : List Slot} {count : Nat}

/-- The row of a verified signature is marked. -/
theorem Proper.marks_row (offset : Nat) (g : Signature) (key : PublicKey) :
    Marks (c.verification.rowCells offset g key) c.verification.enable (· = offset) := by
  have hadvice : c.verification.enable ∉ c.verification.adviceColumns := fun h =>
    hc.not_advice (by simp [markColumns]) (List.mem_append_left _ h)
  intro row x
  constructor
  · intro hmem
    obtain ⟨hcolumn, hrow⟩ := Verification.rowCells_bounds hmem
    exact ⟨hrow, (hcolumn.resolve_left hadvice).2⟩
  · rintro ⟨rfl, rfl⟩
    exact List.mem_cons_self

/-- The decomposition of every limb is marked. -/
theorem Proper.marks_limb (offset : Nat) (limb : AssignedCell) :
    Marks (c.range.sumCells offset limb 32) c.range.step (ByteRange.AtByte offset 1) ∧
      Marks (c.range.sumCells offset limb 32) c.range.stop (ByteRange.AtEnd offset 1) := by
  have hadvice : ∀ mark ∈ c.markColumns, mark ≠ c.range.runningSum ∧ mark ≠ c.range.byte := by
    intro mark hmark
    have hnot := hc.not_advice (List.mem_append_left _ hmark)
    constructor
    · rintro rfl
      exact hnot (by simp [adviceColumns])
    · rintro rfl
      exact hnot (by simp [adviceColumns])
  have hstep := hadvice c.range.step (by simp [markColumns])
  have hstop := hadvice c.range.stop (by simp [markColumns])
  have hne : c.range.step ≠ c.range.stop := hc.fixed_ne 1 2 (by decide)
  constructor
  · exact ByteRange.marks_limbStep (by simp [hstep.1, hstep.2, hne]) offset limb
  · exact ByteRange.marks_limbStop (by simp [hstop.1, hstop.2, hne.symm]) offset limb

/-- The row of a verified signature leaves the other fixed columns. -/
theorem Proper.row_unmarked {column : Column} (hfixed : column ∈ c.markColumns ++ c.tableColumns)
    (henable : c.verification.enable ≠ column) (start offset : Nat) (g : Signature) (key : PublicKey) :
    Marks (placed start (c.verification.rowCells offset g key)) column fun _ => False := by
  refine Marks.placed_of_forall_ne fun y hy => ?_
  rintro rfl
  rcases (Verification.rowCells_bounds hy).1 with hadvice | ⟨hcolumn, -⟩
  · exact hc.not_advice hfixed (List.mem_append_left _ hadvice)
  · exact henable hcolumn.symm

/-- The decompositions of a key leave the other fixed columns. -/
theorem Proper.key_unmarked {column : Column} (hfixed : column ∈ c.markColumns ++ c.tableColumns)
    (hstep : c.range.step ≠ column) (hstop : c.range.stop ≠ column) (start offset start' i : Nat) (key : PublicKey) :
    Marks (placed start (c.keyCells offset (c.limbPairs start' i key))) column fun _ => False := by
  refine Marks.placed_of_forall_ne fun y hy => ?_
  rintro rfl
  have hnot := hc.not_advice hfixed
  rcases (keyCells_bounds (c.length_limbPairs ..) hy).1 with (hcolumn | hcolumn) | ⟨hcolumn | hcolumn, -⟩
  · exact hnot (by simp [adviceColumns, hcolumn])
  · exact hnot (by simp [adviceColumns, hcolumn])
  · exact hstep hcolumn.symm
  · exact hstop hcolumn.symm

/-- The bridge rows leave the other fixed columns. -/
theorem Proper.rows_unmarked {column : Column} (hfixed : column ∈ c.markColumns ++ c.tableColumns)
    (hslot : c.isSlot ≠ column) (hend : c.isEnd ≠ column) (start : Nat) (rows : List (Slot × KeyBytes)) (accs : List Felt) :
    Marks (placed start (c.rowsCells r 0 count rows accs)) column fun _ => False := by
  refine Marks.placed_of_forall_ne fun y hy => ?_
  rintro rfl
  rcases (rowsCells_bounds hy).1 with hadvice | ⟨hcolumn | hcolumn, -⟩
  · exact hc.not_advice hfixed hadvice
  · exact hslot hcolumn.symm
  · exact hend hcolumn.symm

/-- The slots leave the other fixed columns. -/
theorem Proper.slots_unmarked {column : Column} (hfixed : column ∈ c.markColumns ++ c.tableColumns)
    (henable : c.verification.enable ≠ column) (hstep : c.range.step ≠ column) (hstop : c.range.stop ≠ column) :
    Marks ((slots.zipIdx 0).flatMap (c.slotCells verification range)) column fun _ => False := by
  have hslot : ∀ (slot : Slot) i, i < slots.length →
      Marks (c.slotCells verification range (slot, i)) column fun _ => False := by
    intro slot i _
    exact ((hc.row_unmarked hfixed henable verification i slot.signature slot.key).append
      (hc.key_unmarked hfixed hstep hstop range (i * slotRows) verification i slot.key)).congr fun row => or_self_iff
  exact (Marks.flatMap_zipIdx hslot).congr fun row => by simp

section

variable (hslots : slots.length = maxSignatures)
include hslots

/-- The verified signatures are marked, one behind the other. -/
theorem Proper.marks_enable (hsize : verification + maxSignatures ≤ UInt64.size) :
    Marks (c.bridgeCells verification range bridge r slots count) c.verification.enable
      fun row => verification ≤ row ∧ row < verification + maxSignatures := by
  have hmark : c.verification.enable ∈ c.markColumns ++ c.tableColumns := by simp [markColumns]
  have hstep : c.range.step ≠ c.verification.enable := hc.fixed_ne 1 0 (by decide)
  have hstop : c.range.stop ≠ c.verification.enable := hc.fixed_ne 2 0 (by decide)
  have hslot : ∀ (slot : Slot) i, i < slots.length → Marks (c.slotCells verification range (slot, i)) c.verification.enable
      (· = verification + i) := by
    intro slot i hi
    have hrow := (hc.marks_row i slot.signature slot.key).placed verification fun offset hoffset => by omega
    refine (hrow.append (hc.key_unmarked hmark hstep hstop range _ verification i slot.key)).congr fun row => ?_
    simp only [or_false, exists_eq_left]
  refine ((Marks.flatMap_zipIdx hslot).append (hc.rows_unmarked hmark (hc.fixed_ne 3 0 (by decide))
    (hc.fixed_ne 4 0 (by decide)) bridge _ _)).congr fun row => ?_
  rw [hslots, or_iff_left not_false]
  constructor
  · rintro ⟨i, hi, rfl⟩
    omega
  · rintro ⟨hlow, hhigh⟩
    exact ⟨row - verification, by omega, by omega⟩

/-- A column that only the decompositions of limbs mark is marked in those of all keys, one limb behind the other. -/
theorem Proper.marks_keys {column : Column} (hfixed : column ∈ c.markColumns ++ c.tableColumns)
    (henable : c.verification.enable ≠ column) (hslot : c.isSlot ≠ column) (hend : c.isEnd ≠ column) {P : Nat → Prop}
    (hlimb : ∀ offset limb, Marks (c.range.sumCells offset limb 32) column (ByteRange.AtPlace P offset 1))
    (hsize : range + maxSignatures * slotRows ≤ UInt64.size) :
    Marks (c.bridgeCells verification range bridge r slots count) column
      (ByteRange.AtPlace P range (maxSignatures * 16)) := by
  have hrows : slotRows = 16 * limbRows := rfl
  have hmarks : ∀ (slot : Slot) i, i < slots.length → Marks (c.slotCells verification range (slot, i)) column
      fun row => ∃ offset, ByteRange.AtPlace P (i * slotRows) 16 offset ∧ row = range + offset := by
    intro slot i hi
    have hkey := Columns.marks_key hlimb (i * slotRows) (c.length_limbPairs verification i slot.key)
    have hplaced := hkey.placed range fun offset hoffset => by
      have hslot : (i + 1) * slotRows ≤ maxSignatures * slotRows := Nat.mul_le_mul_right _ (hslots ▸ hi)
      have hhigh := hoffset.2.1
      rw [Nat.succ_mul] at hslot
      omega
    exact ((hc.row_unmarked hfixed henable verification i slot.signature slot.key).append hplaced).congr fun _ =>
      or_iff_right not_false
  refine ((Marks.flatMap_zipIdx hmarks).append (hc.rows_unmarked hfixed hslot hend bridge _ _)).congr fun row => ?_
  rw [hslots, or_false]
  simp only [ByteRange.AtPlace, slotRows, limbRows, ByteRange.rowsFor, maxSignatures]
  constructor
  · rintro ⟨i, hi, offset, ⟨hlow, hhigh, hP⟩, rfl⟩
    have hplace : (range + offset - range) % 5 = (offset - i * 80) % 5 := by omega
    exact ⟨by omega, by omega, hplace ▸ hP⟩
  · rintro ⟨hlow, hhigh, hP⟩
    have hplace : (row - range - (row - range) / 80 * 80) % 5 = (row - range) % 5 := by omega
    exact ⟨(row - range) / 80, by omega, row - range, ⟨by omega, by omega, hplace.symm ▸ hP⟩, by omega⟩

/-- The decompositions of all keys are marked, one limb behind the other. -/
theorem Proper.marks_range (hsize : range + maxSignatures * slotRows ≤ UInt64.size) :
    Marks (c.bridgeCells verification range bridge r slots count) c.range.step
        (ByteRange.AtByte range (maxSignatures * 16)) ∧
      Marks (c.bridgeCells verification range bridge r slots count) c.range.stop
        (ByteRange.AtEnd range (maxSignatures * 16)) := by
  have hstep : c.range.step ∈ c.markColumns ++ c.tableColumns := by simp [markColumns]
  have hstop : c.range.stop ∈ c.markColumns ++ c.tableColumns := by simp [markColumns]
  constructor
  · exact hc.marks_keys hslots hstep (hc.fixed_ne 0 1 (by decide)) (hc.fixed_ne 3 1 (by decide))
      (hc.fixed_ne 4 1 (by decide)) (fun offset limb => (hc.marks_limb offset limb).1) hsize
  · exact hc.marks_keys hslots hstop (hc.fixed_ne 0 2 (by decide)) (hc.fixed_ne 3 2 (by decide))
      (hc.fixed_ne 4 2 (by decide)) (fun offset limb => (hc.marks_limb offset limb).2) hsize

/-- The bridge rows are marked: those of the slots and the one behind them. -/
theorem Proper.marks_rows (hsize : bridge + maxSignatures < UInt64.size) :
    Marks (c.bridgeCells verification range bridge r slots count) c.isSlot
        (fun row => bridge ≤ row ∧ row < bridge + maxSignatures) ∧
      Marks (c.bridgeCells verification range bridge r slots count) c.isEnd (· = bridge + maxSignatures) := by
  have hslotMark : c.isSlot ∈ c.markColumns ++ c.tableColumns := by simp [markColumns]
  have hendMark : c.isEnd ∈ c.markColumns ++ c.tableColumns := by simp [markColumns]
  have hne : c.isSlot ≠ c.isEnd := hc.fixed_ne 3 4 (by decide)
  have hlength : (c.slotsWithBytes verification range slots).length = maxSignatures := by
    rw [length_slotsWithBytes, hslots]
  constructor
  · have hmarks := c.marks_isSlot (hc.not_advice hslotMark) hne.symm r 0 count
      (c.slotsWithBytes verification range slots) (accumulators r slots count)
    rw [hlength] at hmarks
    refine ((hc.slots_unmarked hslotMark (hc.fixed_ne 0 3 (by decide)) (hc.fixed_ne 1 3 (by decide))
      (hc.fixed_ne 2 3 (by decide))).append (hmarks.placed bridge fun offset hoffset => by omega)).congr fun row => ?_
    rw [or_iff_right not_false]
    constructor
    · rintro ⟨offset, hoffset, rfl⟩
      omega
    · intro hrow
      exact ⟨row - bridge, by omega, by omega⟩
  · have hmarks := c.marks_isEnd (hc.not_advice hendMark) hne r 0 count
      (c.slotsWithBytes verification range slots) (accumulators r slots count)
    rw [hlength] at hmarks
    refine ((hc.slots_unmarked hendMark (hc.fixed_ne 0 4 (by decide)) (hc.fixed_ne 1 4 (by decide))
      (hc.fixed_ne 2 4 (by decide))).append (hmarks.placed bridge fun offset hoffset => by omega)).congr fun row => ?_
    rw [or_iff_right not_false, exists_eq_left, Nat.zero_add]

end

/-! ## The tables -/

/-- The bridge leaves the columns of the tables. -/
theorem Proper.bridge_unmarked {column : Column} (htable : column ∈ c.tableColumns) :
    Marks (c.bridgeCells verification range bridge r slots count) column fun _ => False := by
  have hfixed : column ∈ c.markColumns ++ c.tableColumns := List.mem_append_right _ htable
  have hne : ∀ mark ∈ c.markColumns, mark ≠ column := fun mark hmark heq => hc.mark_notMem_table hmark (heq ▸ htable)
  exact ((hc.slots_unmarked hfixed (hne _ (by simp [markColumns])) (hne _ (by simp [markColumns]))
    (hne _ (by simp [markColumns]))).append (hc.rows_unmarked hfixed (hne _ (by simp [markColumns]))
    (hne _ (by simp [markColumns])) bridge _ _)).congr fun row => or_self_iff

/-- The table of the bytes holds every byte in its row. -/
theorem Proper.mem_bytes {row : Nat} {x : Felt} :
    (c.range.table, row, x) ∈ c.tableCells ↔ row < ByteRange.tableSize ∧ x = .ofNat row := by
  have hform : c.range.table ≠ c.parity.form := hc.fixed_ne 5 6 (by decide)
  have hbyte : c.range.table ≠ c.parity.byte := hc.fixed_ne 5 7 (by decide)
  simp only [tableCells, ParityTable.Columns.cells, ByteRange.tableCells, List.mem_append, List.mem_flatMap, List.mem_cons,
    Prod.mk.injEq, hform, hbyte, false_and, List.not_mem_nil, or_false, and_false, exists_false, false_or, List.mem_map,
    List.mem_range, true_and]
  constructor
  · rintro ⟨row', hrow, rfl, rfl⟩
    exact ⟨hrow, rfl⟩
  · rintro ⟨hrow, rfl⟩
    exact ⟨row, hrow, rfl, rfl⟩

/-- The parity table holds prefix and byte of each of its rows. -/
theorem Proper.mem_parity {row : Nat} {x : Felt} :
    ((c.parity.form, row, x) ∈ c.tableCells ↔ row < ParityTable.size ∧ x = .ofByte (parityRow row).1) ∧
      ((c.parity.byte, row, x) ∈ c.tableCells ↔ row < ParityTable.size ∧ x = .ofByte (parityRow row).2) := by
  have hform : c.parity.form ≠ c.range.table := hc.fixed_ne 6 5 (by decide)
  have hbyte : c.parity.byte ≠ c.range.table := hc.fixed_ne 7 5 (by decide)
  have hne : c.parity.form ≠ c.parity.byte := hc.fixed_ne 6 7 (by decide)
  have hget : ∀ hlt : row < ParityTable.rows.length, parityRow row = ParityTable.rows[row] := by
    intro hlt
    rw [parityRow, List.getD_eq_getElem?_getD, List.getElem?_eq_getElem hlt, Option.getD_some]
  have hrow : ∀ {value : UInt8 × UInt8 → UInt8}, (∃ pair row', (pair, row') ∈ ParityTable.rows.zipIdx ∧
      row = row' ∧ x = .ofByte (value pair)) ↔
        row < ParityTable.rows.length ∧ x = .ofByte (value (parityRow row)) := by
    intro value
    simp only [List.mem_zipIdx_iff_getElem?, List.getElem?_eq_some_iff]
    constructor
    · rintro ⟨_, _, ⟨hlt, rfl⟩, rfl, rfl⟩
      exact ⟨hlt, by rw [hget hlt]⟩
    · rintro ⟨hlt, rfl⟩
      exact ⟨_, row, ⟨hlt, rfl⟩, rfl, by rw [hget hlt]⟩
  rw [← ParityTable.length_rows]
  rw [← hrow, ← hrow]
  simp only [tableCells, ParityTable.Columns.cells, ByteRange.tableCells, List.mem_append, List.mem_flatMap, List.mem_cons,
    List.mem_map, Prod.mk.injEq, hform.symm, hbyte.symm, hne, hne.symm, false_and, true_and, List.not_mem_nil,
    or_false, false_or, and_false, exists_false, Prod.exists, and_self]

/-! ## The values -/

variable {cells : List (Column × Nat × Felt)} {rows : Nat} (hw : c.Writes cells verification range bridge r slots count)
include hw

/-- A marked column is one on the marked rows and zero elsewhere. -/
theorem Proper.value_mark {column : Column} (hmark : column ∈ c.markColumns) {P : Nat → Prop} [DecidablePred P]
    (h : Marks (c.bridgeCells verification range bridge r slots count) column P) (hrows : ∀ row, P row → row < rows)
    (row : Nat) : ((Matrix.zero sys rows).writeAll cells).value column row = if P row then 1 else 0 := by
  have hfixed : column ∈ c.markColumns ++ c.tableColumns := List.mem_append_left _ hmark
  refine Marks.value (h.of_mem_iff fun row x => ?_) (hc.hasColumn_zero rows (.inr hfixed)) hrows row
  rw [hw column (List.mem_append_right _ hfixed)]
  exact or_iff_right fun htable => hc.mark_notMem_table hmark (tableCells_bounds htable).1

/-- A column of a table holds what is loaded into it. -/
theorem Proper.value_table {column : Column} (htable : column ∈ c.tableColumns) {row : Nat} (hrow : row < rows) {x : Felt}
    {P : Prop} [Decidable P] (h : ∀ y, (column, row, y) ∈ c.tableCells ↔ P ∧ y = x) :
    ((Matrix.zero sys rows).writeAll cells).value column row = if P then x else 0 := by
  have hfixed : column ∈ c.markColumns ++ c.tableColumns := List.mem_append_right _ htable
  refine Matrix.value_zero_writeAll (hc.hasColumn_zero rows (.inr hfixed)) (fun _ => hrow) fun y => ?_
  rw [hw column (List.mem_append_right _ hfixed), ← h y]
  exact or_iff_left fun hmem => ((hc.bridge_unmarked htable) row y |>.mp hmem).1

/-- A claim whose fixed columns are those of a matrix with these cells has the bridge where it was placed. -/
theorem Proper.placed {claim : Claim} (hslots : slots.length = maxSignatures)
    (hv : verification + maxSignatures ≤ rows) (hr : range + maxSignatures * slotRows ≤ rows)
    (hb : bridge + (maxSignatures + 1) ≤ rows) (hsize : rows ≤ UInt64.size) (hheight : claim.rows = rows)
    (hfixed : ∀ column row, column.kind = .fixed →
      claim.value column row = ((Matrix.zero sys rows).writeAll cells).value column row) :
    c.Placed claim verification range bridge := by
  have hkind : ∀ column ∈ c.markColumns ++ c.tableColumns, column.kind = .fixed := fun column h =>
    (hc.fixed_kind column h).1
  have hmark : ∀ column ∈ c.markColumns, ∀ {P : Nat → Prop} [DecidablePred P],
      Marks (c.bridgeCells verification range bridge r slots count) column P → (∀ row, P row → row < rows) →
      ∀ row, row < claim.rows → claim.value column row = if P row then 1 else 0 := by
    intro column hcolumn P _ h hrows row _
    rw [hfixed column row (hkind column (List.mem_append_left _ hcolumn)), hc.value_mark hw hcolumn h hrows]
  have hb' : bridge + maxSignatures < UInt64.size := Nat.lt_of_lt_of_le (Nat.lt_succ_self _) (Nat.le_trans hb hsize)
  have hlimbs : maxSignatures * 16 * limbRows = maxSignatures * slotRows := rfl
  have hbyte : ∀ row, ByteRange.AtByte range (maxSignatures * 16) row → row < rows := by
    intro row hrow
    obtain ⟨-, hlt, -⟩ := hrow
    omega
  have hend : ∀ row, ByteRange.AtEnd range (maxSignatures * 16) row → row < rows := by
    intro row hrow
    obtain ⟨-, hlt, -⟩ := hrow
    omega
  exact
    { verification_le := hheight ▸ hv
      range_le := hheight ▸ hr
      bridge_le := hheight ▸ hb
      enable := hmark _ (by simp [markColumns]) (hc.marks_enable hslots (Nat.le_trans hv hsize)) fun row h => by omega
      step := hmark _ (by simp [markColumns]) (hc.marks_range hslots (Nat.le_trans hr hsize)).1 hbyte
      stop := hmark _ (by simp [markColumns]) (hc.marks_range hslots (Nat.le_trans hr hsize)).2 hend
      slot := hmark _ (by simp [markColumns]) (hc.marks_rows hslots hb').1 fun row h => by omega
      last := hmark _ (by simp [markColumns]) (hc.marks_rows hslots hb').2 fun row h => by omega
      bytes := by
        intro row hrow
        have hcolumn : c.range.table ∈ c.tableColumns := by simp [tableColumns]
        rw [hfixed _ _ (hkind _ (List.mem_append_right _ hcolumn))]
        exact hc.value_table hw hcolumn (hheight ▸ hrow) fun y => hc.mem_bytes
      parity := by
        intro row hrow
        have hform : c.parity.form ∈ c.tableColumns := by simp [tableColumns]
        have hbyte : c.parity.byte ∈ c.tableColumns := by simp [tableColumns]
        rw [hfixed _ _ (hkind _ (List.mem_append_right _ hform)), hfixed _ _ (hkind _ (List.mem_append_right _ hbyte)),
          hc.value_table hw hform (hheight ▸ hrow) fun y => hc.mem_parity.1,
          hc.value_table hw hbyte (hheight ▸ hrow) fun y => hc.mem_parity.2]
        by_cases hlt : row < ParityTable.size
        · rw [if_pos hlt, if_pos hlt]
          exact ⟨rfl, rfl⟩
        · have hzero : parityRow row = (0, 0) := by
            rw [parityRow, List.getD_eq_getElem?_getD, List.getElem?_eq_none (by
              rw [ParityTable.length_rows]
              exact Nat.le_of_not_lt hlt)]
            rfl
          rw [if_neg hlt, if_neg hlt, hzero]
          exact ⟨rfl, rfl⟩ }

end ScriptCircuit.Bridge.Columns
