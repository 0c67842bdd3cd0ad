import Mathlib
import ScriptCircuit.Proofs.Bridge.Placement
import ScriptCircuit.Proofs.Circuit.Layout
import ScriptCircuit.Proofs.Execution.Placement
import ScriptCircuit.Proofs.Script.Run

/-!
# The parts of the circuit stand side by side

The execution region and the bridge write different columns, so each of them stands in the matrix of the circuit as it would
stand alone. A spend has a witness exactly when its signatures fit into the slots, it has a trace and consumed keys, the
signatures go with these keys, and every slot verifies.
-/

namespace ScriptCircuit

namespace Circuit.Columns

variable {c : Columns} {sys : System} (hc : c.Proper sys)
include hc

/-- No column of the execution region is one of the bridge. -/
theorem Proper.apart {column : Column} (h : column ∈ c.execution.adviceColumns ++ c.execution.fixedColumns) :
    column ∉ c.bridge.adviceColumns ++ (c.bridge.markColumns ++ c.bridge.tableColumns) := by
  obtain ⟨advice, fixed, hadvice, hadvice', hfixed, hfixed'⟩ := hc.disjoint
  intro h'
  rcases List.mem_append.mp h with h | h <;> rcases List.mem_append.mp h' with h' | h'
  · exact absurd (hadvice column h) (Nat.not_lt.mpr (hadvice' column h'))
  · exact absurd ((hc.execution.advice_kind column h).1.symm.trans (hc.bridge.fixed_kind column h').1) (by decide)
  · exact absurd ((hc.execution.fixed_kind column h).1.symm.trans (hc.bridge.advice_kind column h').1) (by decide)
  · exact absurd (hfixed column h) (Nat.not_lt.mpr (hfixed' column h'))

variable {trace : Trace} (hrows : trace.rows.length = traceRows) (slots : List Bridge.Slot) (count : Nat)

/-- In the columns of the execution region the circuit writes the opcode table and the trace. -/
theorem Proper.writes_execution : c.execution.Writes (c.cells trace slots count) 0 trace := by
  intro column hcolumn row x
  have hapart := hc.apart hcolumn
  have htables : (column, row, x) ∉ c.bridge.tableCells := fun hmem =>
    hapart (List.mem_append_right _ (List.mem_append_right _ (Bridge.Columns.tableCells_bounds hmem).1))
  have hbridge : ∀ {r}, (column, row, x) ∉ c.bridge.bridgeCells verificationRow rangeRow bridgeRow r slots count :=
    fun hmem => hapart (List.mem_append.mpr ((List.mem_append.mp (Bridge.Columns.bridgeCells_column hmem)).imp_right
      (List.mem_append_left _)))
  simp only [cells, List.mem_append, htables, hbridge, false_or]

include hrows in
/-- In the columns of the bridge the circuit writes the tables and the slots of the bridge. -/
theorem Proper.writes_bridge : c.bridge.Writes (c.cells trace slots count) verificationRow rangeRow bridgeRow trace.challenge
    slots count := by
  intro column hcolumn row x
  have hapart : column ∉ c.execution.adviceColumns ++ c.execution.fixedColumns := fun h => hc.apart h hcolumn
  have htable : (column, row, x) ∉ c.execution.tableCells := by
    intro hmem
    refine hapart (List.mem_append_right _ (List.mem_append_right _ ?_))
    exact (Execution.Columns.tableCells_bounds hmem).1
  have hregion : (column, row, x) ∉ placed 0 (c.execution.regionCells trace) := by
    intro hmem
    obtain ⟨offset, hmem, -⟩ := mem_placed.mp hmem
    exact hapart (List.mem_append.mpr (Execution.Columns.regionCells_bounds hrows hmem).1)
  simp only [cells, List.mem_append, htable, hregion, or_false, false_or]

-- Neither the matrix nor its cells are computed here.
attribute [local irreducible] Matrix.writeAll

/-- A claim whose fixed columns are those of the circuit has the bridge behind the execution region. -/
theorem Proper.placed_bridge {claim : Claim} (hslots : slots.length = maxSignatures)
    (hrows : trace.rows.length = traceRows) (hheight : claim.rows = height) (hfixed : ∀ column row, column.kind = .fixed →
      claim.value column row = ((Matrix.zero sys height).writeAll (c.cells trace slots count)).value column row) :
    c.bridge.Placed claim verificationRow rangeRow bridgeRow :=
  hc.bridge.placed (hc.writes_bridge hrows slots count) hslots (by decide) (by decide) (by decide) (by decide) hheight hfixed

end Circuit.Columns

namespace Spend

open MatrixAux RunAux

/-- The trace of a spend has the full number of rows. -/
theorem length_rows_of_trace {script : List UInt8} {r : Felt} {items : List Item} {trace : Trace}
    (h : Trace.ofItems script r items = .ok trace) : trace.rows.length = traceRows := by
  obtain ⟨stack, -, hrun⟩ := except_bind_eq_ok.mp h
  obtain ⟨-, -, -, -, -, -, hrows, -⟩ := Trace.ofStack_eq_ok.mp hrun
  exact hrows

/-- A spend has a witness exactly when its signatures fit into the slots, its script has a trace and consumes keys, the
signatures go with these keys, and every slot verifies. -/
theorem witness_eq_ok {s : Spend} {sys : System} {c : Circuit.Columns} (hc : c.Proper sys) {w : Witness} :
    s.witness sys c = .ok w ↔ s.signatures.length ≤ maxSignatures ∧
      ∃ trace keys slots, Trace.ofItems s.script s.challenge s.items = .ok trace ∧
        Keys.collect s.script s.items = .ok keys ∧ Bridge.Slot.ofSignatures s.signatures keys = .ok slots ∧
        (∀ slot ∈ slots, slot.Verifies) ∧ w = c.witnessOf sys trace slots s.signatures.length := by
  have hbody : s.witness sys c = if s.signatures.length > maxSignatures then
      throw (.tooManySignatures maxSignatures s.signatures.length)
    else Trace.ofItems s.script s.challenge s.items >>= fun trace => Keys.collect s.script s.items >>= fun keys =>
      (Circuit.synthesis sys c trace s.signatures keys).run ∅ >>= fun out => pure out.1 := by
    unfold witness
    split <;> rfl
  rw [hbody, ite_throw_eq_ok, Nat.not_lt]
  refine and_congr_right fun _ => ?_
  constructor
  · intro h
    obtain ⟨trace, htrace, h⟩ := except_bind_eq_ok.mp h
    obtain ⟨keys, hkeys, h⟩ := except_bind_eq_ok.mp h
    obtain ⟨⟨w', l⟩, hrun, h⟩ := except_bind_eq_ok.mp h
    obtain rfl : w' = w := Except.ok.inj h
    obtain ⟨-, slots, hslots, hverifies, hw⟩ := hc.synthesis_ok.mp ⟨l, hrun⟩
    exact ⟨trace, keys, slots, htrace, hkeys, hslots, hverifies, hw⟩
  · rintro ⟨trace, keys, slots, htrace, hkeys, hslots, hverifies, hw⟩
    obtain ⟨l, hrun⟩ := hc.synthesis_ok.mpr ⟨length_rows_of_trace htrace, slots, hslots, hverifies, hw⟩
    exact except_bind_eq_ok.mpr ⟨trace, htrace, except_bind_eq_ok.mpr ⟨keys, hkeys, except_bind_eq_ok.mpr ⟨(w, l), hrun, rfl⟩⟩⟩

end Spend

end ScriptCircuit
