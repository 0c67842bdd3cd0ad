import Mathlib
import ScriptCircuit.Proofs.Execution.Layout
import ScriptCircuit.Proofs.Plonk.Marks
import ScriptCircuit.Proofs.Plonk.Satisfied

/-!
# What the fixed columns of the execution region hold

The marks of the three kinds of rows stand where the region lies and nowhere else, and the table columns hold the opcode
table over zeros. Overwriting advice does not reach them. `Placed` is all that a proof about an arbitrary claim uses of the
synthesis, next to the copy constraints.
-/

namespace ScriptCircuit.Execution

namespace PlacementAux

/-- In pairs with distinct first parts the first part decides the second. -/
theorem snd_eq_of_fst_nodup {α β : Type} {pairs : List (α × β)} (h : (pairs.map Prod.fst).Nodup) {a : α} {b b' : β}
    (hb : (a, b) ∈ pairs) (hb' : (a, b') ∈ pairs) : b = b' := by
  induction pairs with
  | nil => cases hb
  | cons pair pairs ih =>
    rw [List.map_cons, List.nodup_cons] at h
    rcases List.mem_cons.mp hb with rfl | htail
    · rcases List.mem_cons.mp hb' with hhead' | htail'
      · cases hhead'
        rfl
      · exact (h.1 (List.mem_map.mpr ⟨_, htail', rfl⟩)).elim
    · rcases List.mem_cons.mp hb' with rfl | htail'
      · exact (h.1 (List.mem_map.mpr ⟨_, htail, rfl⟩)).elim
      · exact ih h.2 htail htail'

/-- Lists of the same length whose paired entries have equal images have the same images. -/
theorem map_eq_map_of_zip {α β γ : Type} {f : α → γ} {g : β → γ} {xs : List α} {ys : List β}
    (hlength : xs.length = ys.length) (h : ∀ x y, (x, y) ∈ xs.zip ys → f x = g y) : xs.map f = ys.map g := by
  induction xs generalizing ys with
  | nil =>
    obtain rfl := List.eq_nil_of_length_eq_zero hlength.symm
    rfl
  | cons x xs ih =>
    obtain ⟨y, ys, rfl⟩ := List.exists_cons_of_length_eq_add_one hlength.symm
    rw [List.map_cons, List.map_cons, h x y List.mem_cons_self,
      ih (Nat.succ.inj hlength) fun x y hxy => h x y (List.mem_cons_of_mem _ hxy)]

end PlacementAux

open PlacementAux

namespace Columns

/-- Cells that, in the columns of the execution region, are those of the opcode table and of a trace from a row on. -/
def Writes (c : Columns) (cells : List (Column × Nat × Felt)) (start : Nat) (trace : Trace) : Prop :=
  ∀ column ∈ c.adviceColumns ++ c.fixedColumns, ∀ row x,
    (column, row, x) ∈ cells ↔ (column, row, x) ∈ c.tableCells ∨ (column, row, x) ∈ placed start (c.regionCells trace)

/-- The row of the opcode table at a row of the matrix. -/
def tableRow (row : Nat) : List Felt :=
  if row < 256 then (OpcodeTable.row (.ofNat row)).map .ofNat else List.replicate OpcodeTable.width 0

/-- The fixed columns of a claim mark a region that starts at a row, and hold the opcode table. -/
structure Placed (c : Columns) (claim : Claim) (start : Nat) : Prop where
  end_le : start + traceRows ≤ claim.rows
  first : ∀ row, row < claim.rows → claim.value c.isFirst row = if row = start then 1 else 0
  byte : ∀ row, row < claim.rows →
    claim.value c.isByte row = if start < row ∧ row ≤ start + maxScriptSize then 1 else 0
  last : ∀ row, row < claim.rows → claim.value c.isLast row = if row = start + (maxScriptSize + 1) then 1 else 0
  table : ∀ row, row < claim.rows → (c.table.toList.map fun column => claim.value column row) = tableRow row

section

variable {c : Columns} {sys : System} (hc : c.Proper sys)
include hc

/-! ## The marks -/

/-- The fixed columns are no advice columns. -/
theorem Proper.not_advice {column : Column} (h : column ∈ c.fixedColumns) : column ∉ c.adviceColumns := by
  intro hadvice
  have hfixed := (hc.fixed_kind column h).1
  rw [(hc.advice_kind column hadvice).1] at hfixed
  cases hfixed

/-- The three marks are distinct columns outside the opcode table. -/
theorem Proper.marks_distinct :
    (c.isFirst ≠ c.isByte ∧ c.isFirst ≠ c.isLast ∧ c.isByte ≠ c.isLast) ∧
      c.isFirst ∉ c.table.toList ∧ c.isByte ∉ c.table.toList ∧ c.isLast ∉ c.table.toList := by
  have h := hc.fixed_nodup
  simp only [fixedColumns, List.cons_append, List.nil_append, List.nodup_cons, List.mem_cons, not_or] at h
  exact ⟨⟨h.1.1, h.1.2.1, h.2.1.1⟩, h.1.2.2, h.2.1.2, h.2.2.1⟩

/-- A mark is written into one column, at the offsets of its kind of rows. -/
theorem Proper.mark_mem_regionCells {trace : Trace} (hrows : trace.rows.length = traceRows) {column : Column}
    (hcolumn : column ∈ c.fixedColumns) {offset : Nat} {x : Felt} :
    (column, offset, x) ∈ c.regionCells trace ↔
      ((column = c.isFirst ∧ offset = 0) ∨ (column = c.isByte ∧ 0 < offset ∧ offset ≤ maxScriptSize) ∨
        (column = c.isLast ∧ offset = maxScriptSize + 1)) ∧ x = 1 := by
  have hadvice := hc.not_advice hcolumn
  rw [mem_regionCells hrows]
  constructor
  · rintro (⟨rfl, ⟨rfl, rfl⟩ | h⟩ | ⟨i, row, hi, -, rfl, ⟨rfl, rfl⟩ | h⟩ | ⟨rfl, ⟨rfl, rfl⟩ | h⟩)
    · exact ⟨.inl ⟨rfl, rfl⟩, rfl⟩
    · exact absurd (rowValues_column h) hadvice
    · exact ⟨.inr (.inl ⟨rfl, Nat.succ_pos i, hi⟩), rfl⟩
    · exact absurd (byteValues_column h) hadvice
    · exact ⟨.inr (.inr ⟨rfl, rfl⟩), rfl⟩
    · exact absurd (rowValues_column h) hadvice
  · rintro ⟨⟨rfl, rfl⟩ | ⟨rfl, hpos, hle⟩ | ⟨rfl, rfl⟩, rfl⟩
    · exact .inl ⟨rfl, .inl ⟨rfl, rfl⟩⟩
    · obtain ⟨i, rfl⟩ := Nat.exists_eq_add_of_lt hpos
      have hi : 0 + i < maxScriptSize := hle
      have hlt : 0 + i + 1 < trace.rows.length := by
        rw [hrows]
        exact Nat.succ_lt_succ (Nat.lt_succ_of_lt hi)
      exact .inr (.inl ⟨0 + i, trace.rows[0 + i + 1], hi, List.getElem?_eq_getElem hlt, rfl, .inl ⟨rfl, rfl⟩⟩)
    · exact .inr (.inr ⟨rfl, .inl ⟨rfl, rfl⟩⟩)

omit hc in
/-- The opcode table holds the row of every byte, and a row of zeros behind them. -/
theorem mem_tableCells {column : Column} {row : Nat} {x : Felt} :
    (column, row, x) ∈ c.tableCells ↔
      (row < 256 ∧ ∃ n, (column, n) ∈ c.table.toList.zip (OpcodeTable.row (.ofNat row)) ∧ x = .ofNat n) ∨
        (row = 256 ∧ column ∈ c.table.toList ∧ x = 0) := by
  simp only [tableCells, OpcodeTable.cells, List.mem_append, List.mem_flatMap, List.mem_range, List.mem_map, Prod.mk.injEq,
    Prod.exists]
  constructor
  · rintro (⟨byte, hbyte, _, n, hn, rfl, rfl, rfl⟩ | ⟨_, hcolumn, rfl, rfl, rfl⟩)
    · exact .inl ⟨hbyte, n, hn, rfl⟩
    · exact .inr ⟨rfl, hcolumn, rfl⟩
  · rintro (⟨hbyte, n, hn, rfl⟩ | ⟨rfl, hcolumn, rfl⟩)
    · exact .inl ⟨row, hbyte, column, n, hn, rfl, rfl, rfl⟩
    · exact .inr ⟨column, hcolumn, rfl, rfl, rfl⟩

/-! ## The values -/

variable {cells : List (Column × Nat × Felt)} {start rows : Nat} {trace : Trace} (hw : c.Writes cells start trace)
  (hrows : trace.rows.length = traceRows) (hsize : start + traceRows < UInt64.size) (hend : start + traceRows ≤ rows)
include hw hrows hsize hend

/-- A mark that is written at some offsets is one there and zero elsewhere. -/
theorem Proper.value_mark {column : Column} (hcolumn : column ∈ c.fixedColumns) (htable : column ∉ c.table.toList)
    {row : Nat} {P : Prop} [Decidable P]
    (hP : P ↔ ∃ offset, row = start + offset ∧ (column, offset, 1) ∈ c.regionCells trace) :
    ((Matrix.zero sys rows).writeAll cells).value column row = if P then 1 else 0 := by
  have hrow : ∀ {offset x}, (column, offset, x) ∈ c.regionCells trace → rowAt start offset = start + offset := by
    intro offset x h
    have hoffset := (regionCells_bounds hrows h).2
    exact Nat.mod_eq_of_lt (Nat.lt_trans (Nat.add_lt_add_left hoffset start) hsize)
  refine Matrix.value_zero_writeAll (hc.hasColumn_zero _ (.inr hcolumn)) ?_ ?_
  · intro h
    obtain ⟨offset, rfl, hmem⟩ := hP.mp h
    exact Nat.lt_of_lt_of_le (Nat.add_lt_add_left (regionCells_bounds hrows hmem).2 start) hend
  · intro x
    rw [hw column (List.mem_append_right _ hcolumn), mem_placed, hP]
    constructor
    · rintro (h | ⟨offset, h, rfl⟩)
      · exact absurd (tableCells_bounds h).1 htable
      · have hone := ((hc.mark_mem_regionCells hrows hcolumn).mp h).2
        subst hone
        exact ⟨⟨offset, hrow h, h⟩, rfl⟩
    · rintro ⟨⟨offset, rfl, h⟩, rfl⟩
      exact .inr ⟨offset, h, (hrow h).symm⟩

/-- The mark of the first row stands there only. -/
theorem Proper.value_first (row : Nat) :
    ((Matrix.zero sys rows).writeAll cells).value c.isFirst row = if row = start then 1 else 0 := by
  obtain ⟨⟨hbyte, hlast, -⟩, htable, -, -⟩ := hc.marks_distinct
  have hcolumn : c.isFirst ∈ c.fixedColumns := List.mem_cons_self
  refine hc.value_mark hw hrows hsize hend hcolumn htable ?_
  simp only [hc.mark_mem_regionCells hrows hcolumn, hbyte, hlast, true_and, false_and, or_false, and_true]
  constructor
  · rintro rfl
    exact ⟨0, rfl, rfl⟩
  · rintro ⟨_, rfl, rfl⟩
    rfl

/-- The mark of byte rows stands behind the first row, on as many rows as a script can have bytes. -/
theorem Proper.value_byte (row : Nat) : ((Matrix.zero sys rows).writeAll cells).value c.isByte row =
    if start < row ∧ row ≤ start + maxScriptSize then 1 else 0 := by
  obtain ⟨⟨hfirst, -, hlast⟩, -, htable, -⟩ := hc.marks_distinct
  have hcolumn : c.isByte ∈ c.fixedColumns := List.mem_cons_of_mem _ List.mem_cons_self
  refine hc.value_mark hw hrows hsize hend hcolumn htable ?_
  simp only [hc.mark_mem_regionCells hrows hcolumn, hfirst.symm, hlast, true_and, false_and, or_false, false_or, and_true]
  constructor
  · rintro ⟨hlow, hhigh⟩
    exact ⟨row - start, by omega, by omega, by omega⟩
  · rintro ⟨offset, rfl, hlow, hhigh⟩
    exact ⟨by omega, by omega⟩

/-- The mark of the last row stands there only. -/
theorem Proper.value_last (row : Nat) : ((Matrix.zero sys rows).writeAll cells).value c.isLast row =
    if row = start + (maxScriptSize + 1) then 1 else 0 := by
  obtain ⟨⟨-, hfirst, hbyte⟩, -, -, htable⟩ := hc.marks_distinct
  have hcolumn : c.isLast ∈ c.fixedColumns := List.mem_cons_of_mem _ (List.mem_cons_of_mem _ List.mem_cons_self)
  refine hc.value_mark hw hrows hsize hend hcolumn htable ?_
  simp only [hc.mark_mem_regionCells hrows hcolumn, hfirst.symm, hbyte.symm, true_and, false_and, false_or, and_true]
  constructor
  · rintro rfl
    exact ⟨_, rfl, rfl⟩
  · rintro ⟨_, rfl, rfl⟩
    rfl

omit hsize hend in
/-- The columns of the opcode table hold nothing but the table. -/
theorem Proper.mem_of_table {column : Column} (hcolumn : column ∈ c.table.toList) (row : Nat) (x : Felt) :
    (column, row, x) ∈ cells ↔ (column, row, x) ∈ c.tableCells := by
  have hfixed : column ∈ c.fixedColumns := List.mem_append_right _ hcolumn
  obtain ⟨-, hfirst, hbyte, hlast⟩ := hc.marks_distinct
  rw [hw column (List.mem_append_right _ hfixed), mem_placed]
  refine or_iff_left ?_
  rintro ⟨offset, h, -⟩
  obtain ⟨⟨rfl, -⟩ | ⟨rfl, -⟩ | ⟨rfl, -⟩, -⟩ := (hc.mark_mem_regionCells hrows hfixed).mp h
  · exact hfirst hcolumn
  · exact hbyte hcolumn
  · exact hlast hcolumn

omit hsize hend in
/-- The table columns hold the rows of the opcode table, and zero behind them. -/
theorem Proper.value_table {row : Nat} (hrow : row < rows) :
    (c.table.toList.map fun column => ((Matrix.zero sys rows).writeAll cells).value column row) = tableRow row := by
  have hcolumn : ∀ column ∈ c.table.toList, (Matrix.zero sys rows).HasColumn column := fun column h =>
    hc.hasColumn_zero _ (.inr (List.mem_append_right _ h))
  unfold tableRow
  by_cases hbyte : row < 256
  · rw [if_pos hbyte]
    have hlength : c.table.toList.length = (OpcodeTable.row (.ofNat row)).length := Vector.length_toList
    have hfst : ((c.table.toList.zip (OpcodeTable.row (.ofNat row))).map Prod.fst).Nodup := by
      rw [List.map_fst_zip (Nat.le_of_eq hlength)]
      exact (List.nodup_append.mp hc.fixed_nodup).2.1
    refine map_eq_map_of_zip hlength fun column n hn => ?_
    have hmem := (List.of_mem_zip hn).1
    rw [Matrix.value_zero_writeAll (P := True) (hcolumn column hmem) (fun _ => hrow), if_pos trivial]
    intro x
    rw [hc.mem_of_table hw hrows hmem, mem_tableCells]
    constructor
    · rintro (⟨-, n', hn', rfl⟩ | ⟨rfl, -, -⟩)
      · rw [snd_eq_of_fst_nodup hfst hn' hn]
        exact ⟨trivial, rfl⟩
      · exact absurd hbyte (by decide)
    · rintro ⟨-, rfl⟩
      exact .inl ⟨hbyte, n, hn, rfl⟩
  · rw [if_neg hbyte]
    refine List.eq_replicate_iff.mpr ⟨by rw [List.length_map, Vector.length_toList], fun x hx => ?_⟩
    obtain ⟨column, hmem, rfl⟩ := List.mem_map.mp hx
    have hzero : (∀ y, (column, row, y) ∈ cells ↔ row = 256 ∧ y = 0) →
        ((Matrix.zero sys rows).writeAll cells).value column row = if row = 256 then 0 else 0 :=
      Matrix.value_zero_writeAll (hcolumn column hmem) fun _ => hrow
    rw [ite_self] at hzero
    refine hzero fun y => ?_
    rw [hc.mem_of_table hw hrows hmem, mem_tableCells]
    constructor
    · rintro (⟨h, -⟩ | ⟨h, -, rfl⟩)
      · exact absurd h hbyte
      · exact ⟨h, rfl⟩
    · rintro ⟨h, rfl⟩
      exact .inr ⟨h, hmem, rfl⟩

end

/-- A claim whose fixed columns are those of a matrix with these cells has the region where it was placed. -/
theorem Proper.placed {c : Columns} {sys : System} (hc : c.Proper sys) {claim : Claim}
    {cells : List (Column × Nat × Felt)} {start rows : Nat} {trace : Trace} (hw : c.Writes cells start trace)
    (hrows : trace.rows.length = traceRows) (hsize : start + traceRows < UInt64.size) (hend : start + traceRows ≤ rows)
    (hheight : claim.rows = rows) (hfixed : ∀ column row, column.kind = .fixed →
      claim.value column row = ((Matrix.zero sys rows).writeAll cells).value column row) : c.Placed claim start where
  end_le := hheight ▸ hend
  first row _ := by
    rw [hfixed _ _ (hc.fixed_kind c.isFirst (by simp [fixedColumns])).1, hc.value_first hw hrows hsize hend]
  byte row _ := by
    rw [hfixed _ _ (hc.fixed_kind c.isByte (by simp [fixedColumns])).1, hc.value_byte hw hrows hsize hend]
  last row _ := by
    rw [hfixed _ _ (hc.fixed_kind c.isLast (by simp [fixedColumns])).1, hc.value_last hw hrows hsize hend]
  table row hrow := by
    rw [← hc.value_table hw hrows (hheight ▸ hrow)]
    refine List.map_congr_left fun column hcolumn => ?_
    exact hfixed _ _ (hc.fixed_kind column (List.mem_append_right _ hcolumn)).1

/-- The system of the execution region has proper columns. -/
theorem system_proper : system.1.Proper system.2 where
  advice_kind := by decide +kernel
  advice_nodup := by decide +kernel
  fixed_kind := by decide +kernel
  fixed_nodup := by decide +kernel
  public_kind := rfl
  linked := by decide +kernel

end Columns

/-- What a claim about the witness of a trace with other advice has of the synthesis. -/
structure Overwritten (claim : Claim) (start : Nat) (L c r : Felt) : Prop where
  system_eq : claim.system = system.2
  placed : system.1.Placed claim start
  copies_eq : claim.witness.copies = system.1.publicCopies start
  publicValue : ∀ row, claim.value system.1.publicInput row = #[L, c, r].getD row 0

-- Neither the height of the matrix nor its cells are computed here.
attribute [local irreducible] Layouter.rows Matrix.writeAll

/-- Overwriting the advice of a synthesized witness leaves the marks, the table and the copy constraints. -/
theorem overwritten_of_built {trace : Trace} {before : List (String × Nat)} {height : Nat} {w : Witness} {cells : Cells}
    {l : Layouter} (hbuilt : (synthesis system.2 system.1 trace before height).run ∅ = .ok ((w, cells), l))
    {advice : Array (Vector Felt w.matrix.rows)} {L c r : Felt} {claim : Claim}
    (hmake : Claim.make system.2 (w.withAdvice advice) [[L, c, r]] = .ok claim) :
    Overwritten claim (startRow before) L c r := by
  obtain ⟨⟨-, hrows⟩, hsize, -, rfl⟩ := Columns.system_proper.synthesis_ok.mp ⟨l, hbuilt⟩
  obtain ⟨-, -, rfl⟩ := Claim.make_eq_ok.mp hmake
  refine ⟨rfl, ?_, rfl, fun row => rfl⟩
  refine Columns.system_proper.placed (fun column _ row x => List.mem_append) hrows hsize (Columns.end_le_rows hsize)
    ?_ ?_
  · exact Matrix.rows_writeAll (Matrix.zero system.2 (Columns.planned before).rows) _
  · intro column row hkind
    rw [Claim.value, if_neg (by rw [hkind]; decide)]
    exact Matrix.value_withAdvice (system.1.witnessOf system.2 trace before).matrix advice row hkind

end ScriptCircuit.Execution
