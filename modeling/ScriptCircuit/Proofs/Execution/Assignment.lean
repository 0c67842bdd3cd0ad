import Mathlib
import ScriptCircuit.Proofs.Execution.Region
import ScriptCircuit.Proofs.Script.Run

/-!
# What the advice columns of a trace hold

Every row of the region shows the row of the trace at its offset, with the inverses under the zero tests and the
indicators of the byte, so that the zero tests are exact and the row of the opcode table stands in the view.
-/

namespace ScriptCircuit.Execution

open PlacementAux

/-- A view shows a row of a trace, the indicators apart. -/
structure View.Shows (v : View) (challenge : Felt) (row : Row) : Prop where
  challenge : v.challenge = challenge
  opcode : v.opcode = .ofByte row.opcode
  scriptAcc : v.scriptAcc = row.scriptAcc
  scriptLeft : v.scriptLeft = .ofNat row.scriptLeft
  stack : v.stack = row.stack
  dataLeft : v.dataLeft = .ofNat row.dataLeft
  lengthLeft : v.lengthLeft = .ofNat row.lengthLeft
  lengthWeight : v.lengthWeight = .ofNat row.lengthWeight
  keyAcc : v.keyAcc = row.keyAcc
  checks : v.checks = .ofNat row.checks

namespace Columns

/-- The advice columns of a claim hold a trace, in a region that starts at a row. -/
structure Assigned (c : Columns) (claim : Claim) (start : Nat) (trace : Trace) : Prop where
  placed : c.Placed claim start
  full : trace.rows.length = traceRows
  row : ∀ i row, trace.rows[i]? = some row → ∀ x ∈ c.rowValues trace.challenge row, claim.value x.1 (start + i) = x.2
  byte : ∀ i row, i < maxScriptSize → trace.rows[i + 1]? = some row →
    ∀ x ∈ c.byteValues trace.challenge row, claim.value x.1 (start + (i + 1)) = x.2

section

variable {c : Columns} {sys : System} (hc : c.Proper sys)
include hc

/-- A row writes every column once. -/
theorem Proper.rowValues_nodup (challenge : Felt) (row : Row) : ((c.rowValues challenge row).map Prod.fst).Nodup := by
  have h := hc.advice_nodup
  rw [← c.map_fst_rowValues challenge row] at h
  exact (List.nodup_append.mp h).1

/-- The row of a byte writes every column once. -/
theorem Proper.byteValues_nodup (challenge : Felt) (row : Row) : ((c.byteValues challenge row).map Prod.fst).Nodup := by
  rw [c.map_fst_byteValues]
  exact hc.advice_nodup

/-- A trace writes no advice cell twice with different values. -/
theorem Proper.regionCells_unique {trace : Trace} (hrows : trace.rows.length = traceRows) {column : Column}
    (hcolumn : column ∈ c.adviceColumns) {offset : Nat} {x y : Felt} (hx : (column, offset, x) ∈ c.regionCells trace)
    (hy : (column, offset, y) ∈ c.regionCells trace) : x = y := by
  have hmark : ∀ mark ∈ c.fixedColumns, column ≠ mark := by
    rintro mark hmark rfl
    exact hc.not_advice hmark hcolumn
  have hfirst := hmark c.isFirst (by simp [fixedColumns])
  have hbyte := hmark c.isByte (by simp [fixedColumns])
  have hlast := hmark c.isLast (by simp [fixedColumns])
  simp only [mem_regionCells hrows, hfirst, hbyte, hlast, false_and, false_or] at hx hy
  change (_ ∧ _) ∨ (∃ i row, i < 520 ∧ _) ∨ (offset = 521 ∧ _) at hx hy
  rcases hx with ⟨rfl, hx⟩ | ⟨i, row, hi, hrow, rfl, hx⟩ | ⟨rfl, hx⟩
  · rcases hy with ⟨-, hy⟩ | ⟨_, _, -, -, h, -⟩ | ⟨h, -⟩
    · exact snd_eq_of_fst_nodup (hc.rowValues_nodup _ _) hx hy
    · omega
    · omega
  · rcases hy with ⟨h, -⟩ | ⟨i', row', -, hrow', h, hy⟩ | ⟨h, -⟩
    · omega
    · obtain rfl : i = i' := Nat.succ.inj h
      obtain rfl : row = row' := Option.some.inj (hrow.symm.trans hrow')
      exact snd_eq_of_fst_nodup (hc.byteValues_nodup _ _) hx hy
    · omega
  · rcases hy with ⟨h, -⟩ | ⟨_, _, h', -, h, -⟩ | ⟨-, hy⟩
    · omega
    · omega
    · exact snd_eq_of_fst_nodup (hc.rowValues_nodup _ _) hx hy

omit hc in
/-- The values of every row of a trace are written at its offset. -/
theorem rowValues_mem_regionCells {trace : Trace} (hrows : trace.rows.length = traceRows) {i : Nat} {row : Row}
    (hrow : trace.rows[i]? = some row) {x : Column × Felt} (hx : x ∈ c.rowValues trace.challenge row) :
    (x.1, i, x.2) ∈ c.regionCells trace := by
  rw [mem_regionCells hrows]
  have hi : i < maxScriptSize + 2 := by
    obtain ⟨hlt, -⟩ := List.getElem?_eq_some_iff.mp hrow
    rw [hrows] at hlt
    exact hlt
  rcases i with _ | i
  · rw [Trace.firstRow_eq hrow]
    exact .inl ⟨rfl, .inr hx⟩
  · rcases Nat.lt_or_eq_of_le (Nat.le_of_lt_succ (Nat.lt_of_succ_lt_succ hi)) with hlt | rfl
    · exact .inr (.inl ⟨i, row, hlt, hrow, rfl, .inr (List.mem_append_left _ hx)⟩)
    · rw [Trace.lastRow_eq hrows hrow]
      exact .inr (.inr ⟨rfl, .inr hx⟩)

variable {cells : List (Column × Nat × Felt)} {start rows : Nat} {trace : Trace} (hw : c.Writes cells start trace)
  (hrows : trace.rows.length = traceRows) (hsize : start + traceRows < UInt64.size) (hend : start + traceRows ≤ rows)
include hw hrows hsize hend

/-- An advice cell that a trace writes holds what it writes. -/
theorem Proper.value_advice {column : Column} (hcolumn : column ∈ c.adviceColumns) {offset : Nat} {x : Felt}
    (hmem : (column, offset, x) ∈ c.regionCells trace) :
    ((Matrix.zero sys rows).writeAll cells).value column (start + offset) = x := by
  have hrow : ∀ {offset x}, (column, offset, x) ∈ c.regionCells trace → rowAt start offset = start + offset := by
    intro offset x h
    have hoffset := (regionCells_bounds hrows h).2
    exact Nat.mod_eq_of_lt (Nat.lt_trans (Nat.add_lt_add_left hoffset start) hsize)
  have hboth : column ∈ c.adviceColumns ++ c.fixedColumns := List.mem_append_left _ hcolumn
  refine Matrix.value_writeAll_of_mem _ (hc.hasColumn_zero _ (.inl hcolumn)) ?_ ?_ fun y hy => ?_
  · exact Nat.lt_of_lt_of_le (Nat.add_lt_add_left (regionCells_bounds hrows hmem).2 start) hend
  · exact (hw column hboth _ x).mpr (.inr (mem_placed.mpr ⟨offset, hmem, (hrow hmem).symm⟩))
  · rcases (hw column hboth _ y).mp hy with h | h
    · exact absurd hcolumn (hc.not_advice (List.mem_append_right _ (tableCells_bounds h).1))
    · obtain ⟨offset', h, hoffset⟩ := mem_placed.mp h
      rw [hrow h] at hoffset
      obtain rfl : offset = offset' := Nat.add_left_cancel hoffset
      exact hc.regionCells_unique hrows hcolumn h hmem

/-- A claim about a matrix into which a trace is written has the trace in its advice columns. -/
theorem Proper.assigned {claim : Claim}
    (hheight : claim.rows = rows) (hvalue : ∀ column row, column.kind ≠ .publicInput →
      claim.value column row = ((Matrix.zero sys rows).writeAll cells).value column row) :
    c.Assigned claim start trace where
  placed := hc.placed hw hrows hsize hend hheight fun column row hkind => hvalue column row (by rw [hkind]; decide)
  full := hrows
  row i row hrow x hx := by
    have hcolumn := rowValues_column hx
    rw [hvalue _ _ (by rw [(hc.advice_kind _ hcolumn).1]; decide)]
    exact hc.value_advice hw hrows hsize hend hcolumn (rowValues_mem_regionCells hrows hrow hx)
  byte i row hi hrow x hx := by
    have hcolumn := byteValues_column hx
    rw [hvalue _ _ (by rw [(hc.advice_kind _ hcolumn).1]; decide)]
    exact hc.value_advice hw hrows hsize hend hcolumn
      ((mem_regionCells hrows).mpr (.inr (.inl ⟨i, row, hi, hrow, rfl, .inr hx⟩)))

end

namespace Assigned

variable {c : Columns} {claim : Claim} {start : Nat} {trace : Trace} (h : c.Assigned claim start trace)
include h

/-- The rows of the trace lie in the matrix. -/
theorem row_lt {i : Nat} {row : Row} (hrow : trace.rows[i]? = some row) : start + i < claim.rows := by
  obtain ⟨hlt, -⟩ := List.getElem?_eq_some_iff.mp hrow
  rw [h.full] at hlt
  exact h.placed.row_lt hlt

/-- Every row of the region shows the row of the trace at its offset. -/
theorem shows {i : Nat} {row : Row} (hrow : trace.rows[i]? = some row) :
    (c.rowView claim (start + i)).Shows trace.challenge row := by
  have hstate : ∀ x ∈ c.stateValues trace.challenge row, claim.value x.1 (start + i) = x.2 := fun x hx =>
    h.row i row hrow x (List.mem_append_left _ hx)
  have hstack : ∀ x ∈ c.stack.toList.zip row.stack.toList, claim.value x.1 (start + i) = x.2 := fun x hx =>
    hstate x (by simp only [stateValues, List.mem_append]; exact .inl (.inr hx))
  exact
    { challenge := hstate (c.challenge, trace.challenge) (by simp [stateValues])
      opcode := hstate (c.opcode, .ofByte row.opcode) (by simp [stateValues])
      scriptAcc := hstate (c.scriptAcc, row.scriptAcc) (by simp [stateValues])
      scriptLeft := hstate (c.scriptLeft, .ofNat row.scriptLeft) (by simp [stateValues])
      stack := by
        refine Vector.ext fun j hj => ?_
        refine (Vector.getElem_map _ hj).trans (hstack (c.stack[j], row.stack[j]) ?_)
        have hlength : j < (c.stack.toList.zip row.stack.toList).length := by
          rw [List.length_zip, Vector.length_toList, Vector.length_toList, Nat.min_self]
          exact hj
        exact List.mem_iff_getElem.mpr ⟨j, hlength, List.getElem_zip⟩
      dataLeft := hstate (c.dataLeft, .ofNat row.dataLeft) (by simp [stateValues])
      lengthLeft := hstate (c.lengthLeft, .ofNat row.lengthLeft) (by simp [stateValues])
      lengthWeight := hstate (c.lengthWeight, .ofNat row.lengthWeight) (by simp [stateValues])
      keyAcc := hstate (c.keyAcc, row.keyAcc) (by simp [stateValues])
      checks := hstate (c.checks, .ofNat row.checks) (by simp [stateValues]) }

/-- On the row of a byte the row of the opcode table stands. -/
theorem classified {i : Nat} (hi : i < maxScriptSize) {row : Row} (hrow : trace.rows[i + 1]? = some row) :
    (c.rowView claim (start + (i + 1))).Classified row.opcode := by
  have hbyte : ∀ x ∈ c.indicators.toList.zip (OpcodeTable.indicators row.opcode),
      claim.value x.1 (start + (i + 1)) = .ofNat x.2 := fun x hx =>
    h.byte i row hi hrow (x.1, .ofNat x.2) (List.mem_append_right _ (List.mem_map.mpr ⟨x, hx, rfl⟩))
  simp only [Indicators.toList, OpcodeTable.indicators, OpcodeClass.all, List.map_cons, List.map_nil, List.zip_cons_cons,
    List.forall_mem_cons, OpcodeTable.oneHot] at hbyte
  have hbool : ∀ (p : Prop) [Decidable p], Felt.ofNat (if p then 1 else 0) = if p then 1 else 0 := by
    intro p _
    split <;> rfl
  simp only [hbool] at hbyte
  obtain ⟨henabled, hempty, hnumber, hbytes, hdata1, hdata2, hdata4, hcheck, -⟩ := hbyte
  refine ⟨(h.shows hrow).opcode, henabled, fun k => ?_⟩
  cases k <;> assumption

/-- The value of a zero test and its inverse make the test exact. -/
theorem exact_of_tested {i : Nat} {row : Row} (hrow : trace.rows[i]? = some row) {z : IsZero} {x : Felt}
    (hz : (z, x) ∈ c.tested row) (hvalue : z.value.eval (claim.read (start + i)) = x) :
    z.Exact (claim.read (start + i)) := by
  have hlt := h.row_lt hrow
  apply IsZero.exact_of_inverse
  rw [claim.read_zero _ hlt, hvalue, ← Felt.inv_eq]
  exact h.row i row hrow (z.inverse, x.inv) (List.mem_append_right _ (List.mem_map.mpr ⟨(z, x), hz, rfl⟩))

/-- On every row the zero tests are exact. -/
theorem tests {i : Nat} {row : Row} (hrow : trace.rows[i]? = some row) :
    c.Tested (claim.read (start + i)) ∧ c.topFalse.Exact (claim.read (start + i)) := by
  have hshows := h.shows hrow
  rw [← cur_read (h.row_lt hrow)] at hshows
  have hexact : ∀ {z : IsZero} {x : Felt}, (z, x) ∈ c.tested row → z.value.eval (claim.read (start + i)) = x →
      z.Exact (claim.read (start + i)) := h.exact_of_tested hrow
  constructor
  · exact
      { scriptRead := hexact (x := .ofNat row.scriptLeft) (by simp [Columns.tested]) hshows.scriptLeft
        noData := hexact (x := .ofNat row.dataLeft) (by simp [Columns.tested]) hshows.dataLeft
        noLength := hexact (x := .ofNat row.lengthLeft) (by simp [Columns.tested]) hshows.lengthLeft
        lastLength := by
          refine hexact (x := .ofNat row.lengthLeft - 1) (by simp [Columns.tested]) ?_
          rw [← hshows.lengthLeft, lastLength, Expr.eval_difference]
          rfl }
  · refine hexact (x := row.stack.top * (row.stack.top - negativeZero)) (by simp [Columns.tested]) ?_
    rw [← hshows.stack, ← eval_top, topFalse, Expr.eval_mul, Expr.eval_difference]
    rfl

end Assigned

end Columns

end ScriptCircuit.Execution
