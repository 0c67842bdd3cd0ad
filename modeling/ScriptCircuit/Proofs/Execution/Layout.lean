import Mathlib
import ScriptCircuit.Execution.Circuit
import ScriptCircuit.Proofs.Plonk.Synthesis

/-!
# The layout of the execution region

What the synthesis of a trace leaves behind: which cells it has written, where the region lies and which cells are bound to
the public values. The region starts behind the rows planned before it, and a synthesis that ends well has not wrapped
around the numbers of rows.
-/

namespace ScriptCircuit.Execution

open MatrixAux

/-- The row behind regions that are planned from a row on. -/
def rowBehind (row : Nat) (before : List (String × Nat)) : Nat :=
  before.foldl (fun row (_, height) => (row + height) % UInt64.size) row

/-- The row the execution region starts at. -/
def startRow (before : List (String × Nat)) : Nat :=
  rowBehind 0 before

namespace Columns

/-- The advice columns of a row: those of the state, those under the zero tests and the indicators. -/
def adviceColumns (c : Columns) : List Column :=
  [c.challenge, c.opcode, c.scriptAcc, c.scriptLeft] ++ c.stack.toList ++
    [c.dataLeft, c.lengthLeft, c.lengthWeight, c.keyAcc, c.checks] ++
    [c.scriptLeftInverse, c.dataLeftInverse, c.lengthLeftInverse, c.lengthLastInverse, c.topInverse] ++ c.indicators.toList

/-- The fixed columns: the kinds of rows and the opcode table. -/
def fixedColumns (c : Columns) : List Column :=
  [c.isFirst, c.isByte, c.isLast] ++ c.table.toList

/-- The columns that are bound to public values or shared with other regions. -/
def linkedColumns (c : Columns) : List Column :=
  [c.challenge, c.scriptAcc, c.scriptLeft, c.keyAcc, c.checks]

/-- The columns are distinct columns of a system, of the kinds their use asks for. -/
structure Proper (c : Columns) (sys : System) : Prop where
  advice_kind : ∀ column ∈ c.adviceColumns, column.kind = .advice ∧ column.index < sys.adviceCount
  advice_nodup : c.adviceColumns.Nodup
  fixed_kind : ∀ column ∈ c.fixedColumns, column.kind = .fixed ∧ column.index < sys.fixedCount
  fixed_nodup : c.fixedColumns.Nodup
  public_kind : c.publicInput.kind = .publicInput
  linked : ∀ column ∈ c.publicInput :: c.linkedColumns, sys.equalityEnabled column = true

/-! ## The cells of a region -/

/-- What a row of a trace puts into its columns, the indicators apart. -/
def rowValues (c : Columns) (challenge : Felt) (row : Row) : List (Column × Felt) :=
  c.stateValues challenge row ++ (c.tested row).map fun (test, x) => (test.inverse, x.inv)

/-- What the row of a script byte or of padding puts into its columns. -/
def byteValues (c : Columns) (challenge : Felt) (row : Row) : List (Column × Felt) :=
  c.rowValues challenge row ++ (c.indicators.toList.zip (OpcodeTable.indicators row.opcode)).map fun (column, x) =>
    (column, .ofNat x)

/-- The cells a trace writes into its region. -/
def regionCells (c : Columns) (trace : Trace) : List (Column × Nat × Felt) :=
  (c.isFirst, 0, 1) :: cellsAt 0 (c.rowValues trace.challenge trace.firstRow) ++
    (trace.rows.drop 1).dropLast.zipIdx.flatMap (fun (row, i) =>
      (c.isByte, i + 1, 1) :: cellsAt (i + 1) (c.byteValues trace.challenge row)) ++
    (c.isLast, traceRows - 1, 1) :: cellsAt (traceRows - 1) (c.rowValues trace.challenge trace.lastRow)

/-- The values of a row and the indicators fill the advice columns. -/
theorem map_fst_rowValues (c : Columns) (challenge : Felt) (row : Row) :
    (c.rowValues challenge row).map Prod.fst ++ c.indicators.toList = c.adviceColumns := by
  have hstack : (c.stack.toList.zip row.stack.toList).map Prod.fst = c.stack.toList :=
    List.map_fst_zip (Nat.le_of_eq (by rw [Vector.length_toList, Vector.length_toList]))
  simp only [rowValues, stateValues, tested, adviceColumns, List.map_append, List.map_map, hstack]
  rfl

/-- The values of the row of a byte fill the advice columns. -/
theorem map_fst_byteValues (c : Columns) (challenge : Felt) (row : Row) :
    (c.byteValues challenge row).map Prod.fst = c.adviceColumns := by
  rw [← c.map_fst_rowValues challenge row, byteValues, List.map_append]
  rfl

section

variable {c : Columns} {sys : System} (hc : c.Proper sys)
include hc

/-- The values of a row go to advice columns. -/
theorem Proper.rowValues_kind (challenge : Felt) {row : Row} {x : Column × Felt} (h : x ∈ c.rowValues challenge row) :
    x.1.kind = .advice := by
  refine (hc.advice_kind x.1 ?_).1
  rw [← c.map_fst_rowValues challenge row]
  exact List.mem_append_left _ (List.mem_map_of_mem h)

/-- The values of the row of a byte go to advice columns. -/
theorem Proper.byteValues_kind (challenge : Felt) {row : Row} {x : Column × Felt} (h : x ∈ c.byteValues challenge row) :
    x.1.kind = .advice := by
  refine (hc.advice_kind x.1 ?_).1
  rw [← c.map_fst_byteValues challenge row]
  exact List.mem_map_of_mem h

/-- Assigning a row writes its values at its offset. -/
theorem Proper.does_assignRow (challenge : Felt) (offset : Nat) (row : Row) :
    (c.assignRow challenge offset row).Does sys (cellsAt offset (c.rowValues challenge row)) [] fun _ => () := by
  have hstate : ∀ x ∈ c.stateValues challenge row, x.1.kind = .advice := fun x hx =>
    hc.rowValues_kind challenge (List.mem_append_left _ hx)
  have htested : ∀ x ∈ (c.tested row).map fun (test, x) => (test.inverse, x.inv), x.1.kind = .advice := fun x hx =>
    hc.rowValues_kind challenge (List.mem_append_right _ hx)
  have hcells : cellsAt offset (c.rowValues challenge row) = cellsAt offset (c.stateValues challenge row) ++
      cellsAt offset ((c.tested row).map fun (test, x) => (test.inverse, x.inv)) := List.map_append
  rw [hcells]
  exact (Fill.does_assignAll offset hstate).andThen (Fill.does_assignAll offset htested)

/-- Assigning the row of a byte writes its mark and its values. -/
theorem Proper.does_assignByteRow (challenge : Felt) (offset : Nat) (row : Row) :
    (c.assignByteRow challenge offset row).Does sys
      ((c.isByte, offset, 1) :: cellsAt offset (c.byteValues challenge row)) [] fun _ => () := by
  have hindicators : ∀ x ∈ (c.indicators.toList.zip (OpcodeTable.indicators row.opcode)).map fun (column, x) =>
      (column, Felt.ofNat x), x.1.kind = .advice := fun x hx =>
    hc.byteValues_kind challenge (List.mem_append_right _ hx)
  have hcells : cellsAt offset (c.byteValues challenge row) = cellsAt offset (c.rowValues challenge row) ++
      cellsAt offset ((c.indicators.toList.zip (OpcodeTable.indicators row.opcode)).map fun (column, x) =>
        (column, Felt.ofNat x)) := List.map_append
  rw [hcells]
  exact (Fill.does_enable c.isByte offset).andThen
    ((hc.does_assignRow challenge offset row).andThen (Fill.does_assignAll offset hindicators))

/-- A trace is written into a region when both have the full number of rows and the cells fit. -/
theorem Proper.ends_assign {trace : Trace} {s s' : Filling} {cells : Cells} :
    (c.assign trace).Ends s cells s' ↔
      (s.region.height = traceRows ∧ trace.rows.length = traceRows) ∧ (∀ x ∈ c.regionCells trace, s.Fits x.1 x.2.1) ∧
        cells = c.cells s.region.start trace ∧ s' = s.after (c.regionCells trace) [] := by
  have hhand : Fill.Does _ sys [] [] _ := Fill.does_hand fun start => c.cells start trace
  have hbytes : ((trace.rows.drop 1).dropLast.zipIdx.forM fun (row, i) => c.assignByteRow trace.challenge (i + 1) row :
      Fill Unit).Does sys ((trace.rows.drop 1).dropLast.zipIdx.flatMap fun (row, i) =>
        (c.isByte, i + 1, 1) :: cellsAt (i + 1) (c.byteValues trace.challenge row))
      ((trace.rows.drop 1).dropLast.zipIdx.flatMap fun _ => []) fun _ => () :=
    Fill.does_forM fun x _ => hc.does_assignByteRow trace.challenge (x.2 + 1) x.1
  have hbody := (Fill.does_enable c.isFirst 0).andThen ((hc.does_assignRow trace.challenge 0 trace.firstRow).andThen
    (hbytes.andThen ((Fill.does_enable c.isLast (traceRows - 1)).andThen
      ((hc.does_assignRow trace.challenge (traceRows - 1) trace.lastRow).andThen hhand))))
  have hcells : c.regionCells trace = [(c.isFirst, 0, 1)] ++ (cellsAt 0 (c.rowValues trace.challenge trace.firstRow) ++
      ((trace.rows.drop 1).dropLast.zipIdx.flatMap (fun (row, i) =>
        (c.isByte, i + 1, 1) :: cellsAt (i + 1) (c.byteValues trace.challenge row)) ++
      ([(c.isLast, traceRows - 1, 1)] ++ (cellsAt (traceRows - 1) (c.rowValues trace.challenge trace.lastRow) ++ [])))) := by
    simp [regionCells]
  have hlinks : ([] ++ ([] ++ ((trace.rows.drop 1).dropLast.zipIdx.flatMap (fun _ => []) ++ ([] ++ ([] ++ [])))) :
      List (Cell × Column × Nat)) = [] := by simp
  rw [← hcells, hlinks] at hbody
  have hassign : c.assign trace = Fill.require (fun r =>
      if r.height = traceRows ∧ trace.rows.length = traceRows then pure ()
      else throw (.executionHeight traceRows r.height trace.rows.length)) >>= fun _ => _ := rfl
  rw [hassign, Fill.ends_bind]
  simp only [Fill.ends_require]
  constructor
  · rintro ⟨_, t, ⟨hcheck, ht⟩, hrest⟩
    subst t
    obtain ⟨hfits, -, rfl, rfl⟩ := (hbody _ _ _).mp hrest
    by_cases h : s.region.height = traceRows ∧ trace.rows.length = traceRows
    · exact ⟨h, hfits, rfl, rfl⟩
    · rw [if_neg h] at hcheck
      cases hcheck
  · rintro ⟨h, hfits, rfl, rfl⟩
    exact ⟨(), s, ⟨if_pos h, rfl⟩, (hbody _ _ _).mpr ⟨hfits, by simp, rfl, rfl⟩⟩

end

/-! ## The cells lie in their columns and rows -/

/-- The cells of the opcode table lie in its columns and rows. -/
theorem tableCells_bounds {c : Columns} {x : Column × Nat × Felt} (h : x ∈ c.tableCells) :
    x.1 ∈ c.table.toList ∧ x.2.1 < OpcodeTable.size := by
  rcases List.mem_append.mp h with h | h
  · obtain ⟨byte, hbyte, h⟩ := List.mem_flatMap.mp h
    obtain ⟨⟨column, n⟩, hzip, rfl⟩ := List.mem_map.mp h
    have := List.mem_range.mp hbyte
    exact ⟨(List.of_mem_zip hzip).1, by change byte < 257; omega⟩
  · obtain ⟨column, hcolumn, rfl⟩ := List.mem_map.mp h
    exact ⟨hcolumn, Nat.lt_succ_self 256⟩

/-- The rows of the bytes and of padding stand between the first and the last row of a trace. -/
theorem mem_byteRows {rows : List Row} {row : Row} {i : Nat} (hrows : rows.length = traceRows) :
    (row, i) ∈ (rows.drop 1).dropLast.zipIdx ↔ i < maxScriptSize ∧ rows[i + 1]? = some row := by
  rw [List.mem_zipIdx_iff_getElem?, List.getElem?_dropLast, List.getElem?_drop, List.length_drop, hrows,
    Nat.add_comm 1 i]
  change (if i < 520 then _ else _) = _ ↔ i < 520 ∧ _
  split
  · rename_i h
    simp [h]
  · rename_i h
    simp [h]

/-- The cells of a region: the marks of the first and the last row and of the rows between, and the values of each row. -/
theorem mem_regionCells {c : Columns} {trace : Trace} (hrows : trace.rows.length = traceRows) {column : Column}
    {offset : Nat} {x : Felt} :
    (column, offset, x) ∈ c.regionCells trace ↔
      (offset = 0 ∧ ((column = c.isFirst ∧ x = 1) ∨ (column, x) ∈ c.rowValues trace.challenge trace.firstRow)) ∨
      (∃ i row, i < maxScriptSize ∧ trace.rows[i + 1]? = some row ∧ offset = i + 1 ∧
        ((column = c.isByte ∧ x = 1) ∨ (column, x) ∈ c.byteValues trace.challenge row)) ∨
      (offset = traceRows - 1 ∧
        ((column = c.isLast ∧ x = 1) ∨ (column, x) ∈ c.rowValues trace.challenge trace.lastRow)) := by
  have hmark : ∀ (mark : Column) (n : Nat) (values : List (Column × Felt)),
      (column, offset, x) ∈ (mark, n, (1 : Felt)) :: cellsAt n values ↔
        offset = n ∧ ((column = mark ∧ x = 1) ∨ (column, x) ∈ values) := by
    intro mark n values
    rw [List.mem_cons, mem_cellsAt, Prod.mk.injEq, Prod.mk.injEq]
    constructor
    · rintro (⟨hcolumn, hoffset, hx⟩ | ⟨hoffset, hmem⟩)
      · exact ⟨hoffset, .inl ⟨hcolumn, hx⟩⟩
      · exact ⟨hoffset, .inr hmem⟩
    · rintro ⟨hoffset, ⟨hcolumn, hx⟩ | hmem⟩
      · exact .inl ⟨hcolumn, hoffset, hx⟩
      · exact .inr ⟨hoffset, hmem⟩
  rw [regionCells, List.append_assoc, List.mem_append, hmark, List.mem_append, hmark, List.mem_flatMap]
  simp only [Prod.exists, mem_byteRows hrows, hmark]
  refine or_congr_right (or_congr_left ?_)
  constructor
  · rintro ⟨row, i, ⟨hi, hrow⟩, hoffset, hvalue⟩
    exact ⟨i, row, hi, hrow, hoffset, hvalue⟩
  · rintro ⟨i, row, hi, hrow, hoffset, hvalue⟩
    exact ⟨row, i, ⟨hi, hrow⟩, hoffset, hvalue⟩

/-- The values of a row go to columns of the region. -/
theorem rowValues_column {c : Columns} {challenge : Felt} {row : Row} {x : Column × Felt}
    (h : x ∈ c.rowValues challenge row) : x.1 ∈ c.adviceColumns := by
  rw [← c.map_fst_rowValues challenge row]
  exact List.mem_append_left _ (List.mem_map_of_mem h)

/-- The values of the row of a byte go to columns of the region. -/
theorem byteValues_column {c : Columns} {challenge : Felt} {row : Row} {x : Column × Felt}
    (h : x ∈ c.byteValues challenge row) : x.1 ∈ c.adviceColumns := by
  rw [← c.map_fst_byteValues challenge row]
  exact List.mem_map_of_mem h

/-- The cells of a full trace lie in the columns and the rows of the region. -/
theorem regionCells_bounds {c : Columns} {trace : Trace} (hrows : trace.rows.length = traceRows)
    {x : Column × Nat × Felt} (h : x ∈ c.regionCells trace) :
    (x.1 ∈ c.adviceColumns ∨ x.1 ∈ c.fixedColumns) ∧ x.2.1 < traceRows := by
  have hfirst : 0 < traceRows := by decide
  have hlast : traceRows - 1 < traceRows := by decide
  obtain ⟨column, offset, x⟩ := x
  rcases (mem_regionCells hrows).mp h with
    ⟨rfl, ⟨rfl, -⟩ | h⟩ | ⟨i, row, hi, -, rfl, ⟨rfl, -⟩ | h⟩ | ⟨rfl, ⟨rfl, -⟩ | h⟩
  · exact ⟨.inr (by simp [fixedColumns]), hfirst⟩
  · exact ⟨.inl (rowValues_column h), hfirst⟩
  · exact ⟨.inr (by simp [fixedColumns]), Nat.succ_lt_succ (Nat.lt_succ_of_lt hi)⟩
  · exact ⟨.inl (byteValues_column h), Nat.succ_lt_succ (Nat.lt_succ_of_lt hi)⟩
  · exact ⟨.inr (by simp [fixedColumns]), hlast⟩
  · exact ⟨.inl (rowValues_column h), hlast⟩

/-! ## The synthesis -/

/-- The copy constraints with the public values, for a region that starts at a row. -/
def publicCopies (c : Columns) (start : Nat) : List Copy :=
  [⟨⟨c.scriptLeft, start⟩, ⟨c.publicInput, 0⟩⟩, ⟨⟨c.scriptAcc, start⟩, ⟨c.publicInput, 1⟩⟩,
    ⟨⟨c.challenge, start⟩, ⟨c.publicInput, 2⟩⟩]

/-- The layouter once the execution region and its table are planned. -/
def planned (before : List (String × Nat)) : Layouter :=
  ((Synthesis.behindAll ∅ before).behind "execution" traceRows).withTable OpcodeTable.size

/-- The witness of a trace. -/
def witnessOf (c : Columns) (sys : System) (trace : Trace) (before : List (String × Nat)) : Witness where
  matrix := (Matrix.zero sys (planned before).rows).writeAll
    (c.tableCells ++ placed (startRow before) (c.regionCells trace))
  copies := c.publicCopies (startRow before)

/-- The next row behind planned regions adds up their heights. -/
theorem nextRow_behindAll (l : Layouter) (before : List (String × Nat)) :
    (Synthesis.behindAll l before).nextRow = rowBehind l.nextRow before := by
  induction before generalizing l with
  | nil => rfl
  | cons region before ih => exact ih _

/-- The row behind regions is a word. -/
theorem rowBehind_lt {row : Nat} (before : List (String × Nat)) (h : row < UInt64.size) :
    rowBehind row before < UInt64.size := by
  induction before generalizing row with
  | nil => exact h
  | cons region before ih => exact ih (Nat.mod_lt _ (by decide))

theorem startRow_lt (before : List (String × Nat)) : startRow before < UInt64.size :=
  rowBehind_lt before (by decide)

/-- The next row behind the execution region. -/
theorem nextRow_planned (before : List (String × Nat)) :
    (planned before).nextRow = (startRow before + traceRows) % UInt64.size := by
  rw [startRow, show (0 : Nat) = (∅ : Layouter).nextRow from rfl, ← nextRow_behindAll]
  rfl

/-- The opcode table needs as many rows as it has bytes, whatever is planned before it. -/
theorem tableRows_withTable (before : List (String × Nat)) (height : Nat) :
    (((Synthesis.behindAll ∅ before).behind "execution" height).withTable OpcodeTable.size).tableRows =
      OpcodeTable.size := by
  change max (Synthesis.behindAll ∅ before).tableRows OpcodeTable.size = _
  rw [Synthesis.tableRows_behindAll]
  rfl

theorem tableRows_planned (before : List (String × Nat)) : (planned before).tableRows = OpcodeTable.size :=
  tableRows_withTable before traceRows

/-- The execution region is planned behind the regions before it, whatever its height. -/
theorem regions_behind (before : List (String × Nat)) (height : Nat) :
    (((Synthesis.behindAll ∅ before).behind "execution" height).withTable OpcodeTable.size).regions[
      (Synthesis.behindAll ∅ before).regions.length]? = some ⟨"execution", startRow before, height⟩ := by
  rw [startRow, show (0 : Nat) = (∅ : Layouter).nextRow from rfl, ← nextRow_behindAll]
  exact List.getElem?_concat_length

/-- The first row of a region lies in the matrix only when the region does not wrap around the numbers of rows. -/
theorem end_lt_of_first {before : List (String × Nat)} (h : rowAt (startRow before) 0 < (planned before).rows) :
    startRow before + traceRows < UInt64.size := by
  have hbounds := (planned before).rows_bounds.2
  have hstart := startRow_lt before
  rw [nextRow_planned, tableRows_planned] at hbounds
  unfold rowAt at h
  change _ ≤ max 1 (2 * max ((startRow before + 522) % 18446744073709551616) 257) at hbounds
  change startRow before < 18446744073709551616 at hstart
  change (startRow before + 0) % 18446744073709551616 < _ at h
  change startRow before + 522 < 18446744073709551616
  omega

/-- A region that does not wrap around lies in the matrix. -/
theorem end_le_rows {before : List (String × Nat)} (h : startRow before + traceRows < UInt64.size) :
    startRow before + traceRows ≤ (planned before).rows := by
  have hbounds := (planned before).rows_bounds.1
  rw [nextRow_planned, Nat.mod_eq_of_lt h] at hbounds
  exact Nat.le_trans (Nat.le_max_left ..) hbounds

/-- The matrix is as high as the opcode table at least. -/
theorem table_le_rows (before : List (String × Nat)) (height : Nat) :
    OpcodeTable.size ≤ (((Synthesis.behindAll ∅ before).behind "execution" height).withTable OpcodeTable.size).rows := by
  have hbounds := (((Synthesis.behindAll ∅ before).behind "execution" height).withTable OpcodeTable.size).rows_bounds.1
  rw [tableRows_withTable] at hbounds
  exact Nat.le_trans (Nat.le_max_right ..) hbounds

/-- The row of an offset, when the region does not wrap around. -/
theorem rowAt_startRow {before : List (String × Nat)} (h : startRow before + traceRows < UInt64.size) {offset : Nat}
    (hoffset : offset < traceRows) : rowAt (startRow before) offset = startRow before + offset :=
  Nat.mod_eq_of_lt (by omega)

/-- The matrix has the columns of the region. -/
theorem Proper.hasColumn_zero {c : Columns} {sys : System} (hc : c.Proper sys) {column : Column} (rows : Nat)
    (h : column ∈ c.adviceColumns ∨ column ∈ c.fixedColumns) : (Matrix.zero sys rows).HasColumn column :=
  h.elim (fun h => Matrix.hasColumn_zero_advice rows (hc.advice_kind column h))
    fun h => Matrix.hasColumn_zero_fixed rows (hc.fixed_kind column h)

/-- The opcode table fits where as many rows are planned for tables as it has, and the matrix has them. -/
theorem Proper.tableCells_fit {c : Columns} {sys : System} (hc : c.Proper sys) {rows tableRows : Nat}
    (hrows : OpcodeTable.size ≤ rows) (hplanned : OpcodeTable.size ≤ tableRows) :
    ∀ x ∈ c.tableCells, x.2.1 < tableRows ∧ x.2.1 < (Matrix.zero sys rows).rows ∧
      (Matrix.zero sys rows).HasColumn x.1 := by
  intro x hx
  obtain ⟨hcolumn, hrow⟩ := tableCells_bounds hx
  rw [Matrix.rows_zero]
  exact ⟨Nat.lt_of_lt_of_le hrow hplanned, Nat.lt_of_lt_of_le hrow hrows,
    hc.hasColumn_zero _ (.inr (List.mem_append_right _ hcolumn))⟩

/-- A trace is written into the planned region exactly when both have the full number of rows and the region does not
wrap around the numbers of rows. -/
theorem Proper.ends_fillTrace {c : Columns} {sys : System} (hc : c.Proper sys) {l l' : Layouter} {m : Matrix}
    {copies : List Copy} {trace : Trace} {before : List (String × Nat)} {height : Nat}
    (hrows : height = traceRows → m.rows = (planned before).rows)
    (hcolumns : ∀ column ∈ c.adviceColumns ++ c.fixedColumns, m.HasColumn column) {x : Cells × Region} :
    (Synthesis.fill ⟨"execution", startRow before, height, []⟩ (c.assign trace)).Ends (l.withWitness ⟨m, copies⟩) x l' ↔
      ((height = traceRows ∧ trace.rows.length = traceRows) ∧ startRow before + traceRows < UInt64.size) ∧
        x = (c.cells (startRow before) trace, ⟨"execution", startRow before, height, []⟩) ∧
        l' = l.withWitness ⟨m.writeAll (placed (startRow before) (c.regionCells trace)), copies⟩ := by
  rw [Synthesis.ends_fill]
  constructor
  · rintro ⟨_, _, hassign, rfl, rfl⟩
    obtain ⟨hfull, hfits, rfl, rfl⟩ := hc.ends_assign.mp hassign
    obtain ⟨-, hfirst, -⟩ := hfits (c.isFirst, 0, 1) List.mem_cons_self
    exact ⟨⟨hfull, end_lt_of_first (hrows hfull.1 ▸ hfirst)⟩, rfl, rfl⟩
  · rintro ⟨⟨⟨rfl, hfull⟩, hend⟩, rfl, rfl⟩
    refine ⟨_, _, hc.ends_assign.mpr ⟨⟨rfl, hfull⟩, fun x hx => ?_, rfl, rfl⟩, rfl, rfl⟩
    obtain ⟨hcolumn, hoffset⟩ := regionCells_bounds hfull hx
    refine ⟨hoffset, ?_, hcolumns _ (List.mem_append.mpr hcolumn)⟩
    rw [rowAt_startRow hend hoffset, hrows rfl]
    exact Nat.lt_of_lt_of_le (Nat.add_lt_add_left hoffset _) (end_le_rows hend)

/-- Exposing the public values adds their three copy constraints. -/
theorem Proper.ends_exposePublic {c : Columns} {sys : System} (hc : c.Proper sys) {l l' : Layouter} {m : Matrix}
    {copies : List Copy} {trace : Trace} {start : Nat} {u : Unit} :
    (c.exposePublic sys (c.cells start trace)).Ends (l.withWitness ⟨m, copies⟩) u l' ↔
      l' = l.withWitness ⟨m, copies ++ c.publicCopies start⟩ := by
  have hlinks : ∀ column ∈ c.linkedColumns, sys.Links column c.publicInput := fun column hcolumn =>
    ⟨hc.linked _ (List.mem_cons_of_mem _ hcolumn), hc.linked _ List.mem_cons_self⟩
  have hleft := hlinks c.scriptLeft (by simp [linkedColumns])
  have hacc := hlinks c.scriptAcc (by simp [linkedColumns])
  have hchallenge := hlinks c.challenge (by simp [linkedColumns])
  have hexpose : c.exposePublic sys (c.cells start trace) =
      Synthesis.constrainInstance sys ⟨c.scriptLeft, start⟩ c.publicInput 0 >>= fun _ =>
      Synthesis.constrainInstance sys ⟨c.scriptAcc, start⟩ c.publicInput 1 >>= fun _ =>
      Synthesis.constrainInstance sys ⟨c.challenge, start⟩ c.publicInput 2 := rfl
  rw [hexpose, Synthesis.ends_constrainInstance_bind hc.public_kind hleft,
    Synthesis.ends_constrainInstance_bind hc.public_kind hacc, Synthesis.ends_constrainInstance hc.public_kind,
    and_iff_right hchallenge, publicCopies]
  simp only [List.append_assoc, List.singleton_append]
  rfl

/-- The synthesis of a trace, step by step: after the layout, only the fill can fail. -/
theorem Proper.ends_synthesis {c : Columns} {sys : System} (hc : c.Proper sys) {trace : Trace}
    {before : List (String × Nat)} {height : Nat} {x : Witness × Cells} {l : Layouter} :
    (synthesis sys c trace before height).Ends ∅ x l ↔
      ((height = traceRows ∧ trace.rows.length = traceRows) ∧ startRow before + traceRows < UInt64.size) ∧
        x = (c.witnessOf sys trace before, c.cells (startRow before) trace) ∧
        l = { planned before with witness? := none } := by
  let l₀ : Layouter := ((Synthesis.behindAll ∅ before).behind "execution" height).withTable OpcodeTable.size
  have hnone : (Synthesis.behindAll ∅ before).witness? = none := Synthesis.witness_behindAll ∅ before
  have hnone₁ : ((Synthesis.behindAll ∅ before).behind "execution" height).witness? = none := hnone
  have hnone₂ : l₀.witness? = none := hnone
  have hbody : synthesis sys c trace before height =
      (before.forM fun (name, rows) => discard (Synthesis.planRegion name rows) : Synthesis Unit) >>= fun _ =>
      Synthesis.planRegion "execution" height >>= fun index =>
      Synthesis.planTable "opcode table" OpcodeTable.size >>= fun _ =>
      Synthesis.allocate sys >>= fun _ =>
      Synthesis.fillTable OpcodeTable.name c.tableCells >>= fun _ =>
      Synthesis.region index >>= fun region =>
      Synthesis.fill region (c.assign trace) >>= fun x =>
      Synthesis.commit sys x.2 >>= fun _ =>
      c.exposePublic sys x.1 >>= fun _ =>
      Synthesis.take >>= fun w => pure (w, x.1) := rfl
  have htable := hc.tableCells_fit (table_le_rows before height) (Nat.le_of_eq (tableRows_withTable before height).symm)
  have hrows : height = traceRows → ((Matrix.zero sys l₀.rows).writeAll c.tableCells).rows = (planned before).rows := by
    rintro rfl
    rw [Matrix.rows_writeAll, Matrix.rows_zero]
    rfl
  have hcolumns : ∀ column ∈ c.adviceColumns ++ c.fixedColumns,
      ((Matrix.zero sys l₀.rows).writeAll c.tableCells).HasColumn column := fun column hcolumn =>
    (Matrix.hasColumn_writeAll ..).mpr (hc.hasColumn_zero _ (List.mem_append.mp hcolumn))
  rw [hbody, Synthesis.ends_bind_of_unit fun _ _ => Synthesis.ends_planRegions.trans (and_iff_right (.inr rfl)),
    Synthesis.ends_planRegion_bind hnone, Synthesis.ends_planTable_bind hnone₁, Synthesis.ends_allocate_bind hnone₂,
    Synthesis.ends_fillTable_bind htable, Synthesis.ends_region_bind (regions_behind before height),
    Synthesis.ends_bind_of_and fun _ _ => hc.ends_fillTrace hrows hcolumns]
  refine and_congr_right fun ⟨⟨hheight, _⟩, _⟩ => ?_
  subst hheight
  rw [Synthesis.ends_commit_bind (by nofun), Synthesis.ends_bind_of_unit fun _ _ => hc.ends_exposePublic,
    Synthesis.ends_bind_of fun _ _ => Synthesis.ends_take, Synthesis.ends_pure, witnessOf, Matrix.writeAll_append]
  rfl

/-- The synthesis of a trace ends well exactly when region and trace have the full number of rows and the region ends
below the last number of a row; it leaves the witness of the trace. -/
theorem Proper.synthesis_ok {c : Columns} {sys : System} (hc : c.Proper sys) {trace : Trace}
    {before : List (String × Nat)} {height : Nat} {w : Witness} {cells : Cells} :
    (∃ l, (synthesis sys c trace before height).run ∅ = .ok ((w, cells), l)) ↔
      (height = traceRows ∧ trace.rows.length = traceRows) ∧ startRow before + traceRows < UInt64.size ∧
        cells = c.cells (startRow before) trace ∧ w = c.witnessOf sys trace before := by
  constructor
  · rintro ⟨l, h⟩
    obtain ⟨⟨hfull, hend⟩, hresult, -⟩ := hc.ends_synthesis.mp h
    cases hresult
    exact ⟨hfull, hend, rfl, rfl⟩
  · rintro ⟨hfull, hend, rfl, rfl⟩
    exact ⟨_, hc.ends_synthesis.mpr ⟨⟨hfull, hend⟩, rfl, rfl⟩⟩

end Columns

end ScriptCircuit.Execution
