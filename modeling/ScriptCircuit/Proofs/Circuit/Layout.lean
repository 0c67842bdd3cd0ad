import Mathlib
import ScriptCircuit.Proofs.Bridge.Layout
import ScriptCircuit.Proofs.Execution.Layout

/-!
# The layout of the circuit

The execution region starts at row 0, the three regions of the bridge follow it, and all tables start at row 0. The synthesis
of a spend ends well exactly when it has a trace, the signatures go with the keys its script consumes, and every slot
verifies.
-/

namespace ScriptCircuit.Circuit

open MatrixAux

/-- The first row of the verified signatures. -/
def verificationRow : Nat := traceRows

/-- The first row of the decompositions. -/
def rangeRow : Nat := verificationRow + maxSignatures

/-- The first row of the bridge rows. -/
def bridgeRow : Nat := rangeRow + maxSignatures * Bridge.Columns.slotRows

/-- The row of the state after the last byte. -/
def lastRow : Nat := maxScriptSize + 1

/-- The height of the matrix. -/
def height : Nat := 1024

/-- The layouter once all regions and tables are planned. -/
def planned : Layouter :=
  Bridge.behindPlan (((∅ : Layouter).behind "execution" traceRows).withTable OpcodeTable.size)

/-- The height of the matrix for the whole circuit. -/
theorem rows_planned : planned.rows = height := by decide +kernel

theorem tableRows_planned : planned.tableRows = ParityTable.size := by decide

/-- The regions of the bridge lie behind that of the execution. -/
theorem regions_planned : (⟨1, 2, 3⟩ : Bridge.Regions).Planned planned verificationRow rangeRow bridgeRow := by
  refine ⟨?_, ?_, ?_⟩
  all_goals decide +kernel

namespace Columns

/-- The columns of both parts are distinct columns of a system: those of the execution region come first. -/
structure Proper (c : Columns) (sys : System) : Prop where
  execution : c.execution.Proper sys
  bridge : c.bridge.Proper sys
  disjoint : ∃ advice fixed, (∀ column ∈ c.execution.adviceColumns, column.index < advice) ∧
    (∀ column ∈ c.bridge.adviceColumns, advice ≤ column.index) ∧
    (∀ column ∈ c.execution.fixedColumns, column.index < fixed) ∧
    ∀ column ∈ c.bridge.markColumns ++ c.bridge.tableColumns, fixed ≤ column.index

/-- The system of the circuit has proper columns. -/
theorem system_proper : system.1.Proper system.2 where
  execution :=
    { advice_kind := by decide +kernel
      advice_nodup := by decide +kernel
      fixed_kind := by decide +kernel
      fixed_nodup := by decide +kernel
      public_kind := rfl
      linked := by decide +kernel }
  bridge :=
    { advice_kind := by decide +kernel
      advice_nodup := by decide +kernel
      fixed_kind := by decide +kernel
      fixed_nodup := by decide +kernel
      linked := by decide +kernel }
  disjoint := ⟨55, 12, by decide +kernel, by decide +kernel, by decide +kernel, by decide +kernel⟩

/-- The copy constraints between the execution region and the bridge. -/
def bridgeLinks (c : Columns) : List Copy :=
  [⟨⟨c.execution.keyAcc, lastRow⟩, ⟨c.bridge.keyAcc, bridgeRow⟩⟩,
    ⟨⟨c.execution.checks, lastRow⟩, ⟨c.bridge.checks, bridgeRow⟩⟩,
    ⟨⟨c.execution.challenge, 0⟩, ⟨c.bridge.challenge, bridgeRow⟩⟩]

/-- The cells of the witness of a trace over slots, the first `count` of which hold signatures of the script. -/
def cells (c : Columns) (trace : Trace) (slots : List Bridge.Slot) (count : Nat) : List (Column × Nat × Felt) :=
  c.execution.tableCells ++ (c.bridge.tableCells ++
    (c.bridge.bridgeCells verificationRow rangeRow bridgeRow trace.challenge slots count ++
      placed 0 (c.execution.regionCells trace)))

/-- The witness of a trace over slots. -/
def witnessOf (c : Columns) (sys : System) (trace : Trace) (slots : List Bridge.Slot) (count : Nat) : Witness where
  matrix := (Matrix.zero sys height).writeAll (c.cells trace slots count)
  copies := c.bridge.bridgeCopies verificationRow rangeRow bridgeRow slots ++ (c.bridgeLinks ++ c.execution.publicCopies 0)

-- Neither the height of the matrix nor its cells are computed here.
attribute [local irreducible] Layouter.rows Matrix.writeAll

/-- The witness as the steps of the synthesis leave it: tables, bridge and execution region are written one after the
other. -/
theorem witnessOf_eq (c : Columns) (sys : System) (trace : Trace) (slots : List Bridge.Slot) (count : Nat) :
    c.witnessOf sys trace slots count =
      ⟨((((Matrix.zero sys height).writeAll c.execution.tableCells).writeAll c.bridge.tableCells).writeAll
        (c.bridge.bridgeCells verificationRow rangeRow bridgeRow trace.challenge slots count)).writeAll
        (placed 0 (c.execution.regionCells trace)),
      [] ++ c.bridge.bridgeCopies verificationRow rangeRow bridgeRow slots ++ [] ++ c.bridgeLinks ++
        c.execution.publicCopies 0⟩ := by
  rw [witnessOf, cells, Matrix.writeAll_append, Matrix.writeAll_append, Matrix.writeAll_append, List.nil_append,
    List.append_nil, List.append_assoc]

section

variable {c : Columns} {sys : System} (hc : c.Proper sys)
include hc

/-- A trace of the right length is written into the execution region. -/
theorem Proper.ends_execution {m : Matrix} (hheight : m.rows = height)
    (hcolumns : ∀ column, (Matrix.zero sys height).HasColumn column → m.HasColumn column) {l l' : Layouter}
    {copies : List Copy} {trace : Trace} {x : Execution.Cells × Region} :
    (Synthesis.fill ⟨"execution", 0, traceRows, []⟩ (c.execution.assign trace)).Ends (l.withWitness ⟨m, copies⟩) x l' ↔
      trace.rows.length = traceRows ∧ x = (c.execution.cells 0 trace, ⟨"execution", 0, traceRows, []⟩) ∧
        l' = l.withWitness ⟨m.writeAll (placed 0 (c.execution.regionCells trace)), copies⟩ := by
  rw [Synthesis.ends_fill]
  constructor
  · rintro ⟨_, _, hwork, rfl, rfl⟩
    obtain ⟨⟨-, hrows⟩, -, rfl, rfl⟩ := hc.execution.ends_assign.mp hwork
    exact ⟨hrows, rfl, rfl⟩
  · rintro ⟨hrows, rfl, rfl⟩
    refine ⟨_, _, hc.execution.ends_assign.mpr ⟨⟨rfl, hrows⟩, fun x hx => ?_, rfl, rfl⟩, rfl, rfl⟩
    obtain ⟨hcolumn, hoffset⟩ := Execution.Columns.regionCells_bounds hrows hx
    refine Region.Inside.fits ⟨?_, ?_⟩ (hcolumns _ (hc.execution.hasColumn_zero _ hcolumn)) hoffset
    · rw [hheight]
      decide
    · rw [hheight]
      decide

/-- The execution region and the bridge are linked on the fold of the keys, the number of checks and the challenge. -/
theorem Proper.ends_link {l l' : Layouter} {m : Matrix} {copies : List Copy} {trace : Trace} {r acc : Felt} {count : Nat}
    {u : Unit} :
    (do
      Synthesis.constrainEqual sys (c.execution.cells 0 trace).keyAcc.cell (c.bridge.cells bridgeRow r acc count).keyAcc.cell
      Synthesis.constrainEqual sys (c.execution.cells 0 trace).checks.cell (c.bridge.cells bridgeRow r acc count).checks.cell
      Synthesis.constrainEqual sys (c.execution.cells 0 trace).challenge.cell
        (c.bridge.cells bridgeRow r acc count).challenge.cell : Synthesis Unit).Ends (l.withWitness ⟨m, copies⟩) u l' ↔
      l' = l.withWitness ⟨m, copies ++ c.bridgeLinks⟩ := by
  have hexecution : ∀ column ∈ c.execution.linkedColumns, sys.equalityEnabled column = true := fun column hcolumn =>
    hc.execution.linked _ (List.mem_cons_of_mem _ hcolumn)
  have hkeyAcc : sys.Links c.execution.keyAcc c.bridge.keyAcc :=
    ⟨hexecution _ (by simp [Execution.Columns.linkedColumns]), hc.bridge.linked _ (by simp [Bridge.Columns.linkedColumns])⟩
  have hchecks : sys.Links c.execution.checks c.bridge.checks :=
    ⟨hexecution _ (by simp [Execution.Columns.linkedColumns]), hc.bridge.linked _ (by simp [Bridge.Columns.linkedColumns])⟩
  have hchallenge : sys.Links c.execution.challenge c.bridge.challenge :=
    ⟨hexecution _ (by simp [Execution.Columns.linkedColumns]), hc.bridge.linked _ (by simp [Bridge.Columns.linkedColumns])⟩
  rw [Synthesis.ends_constrainEqual_bind hkeyAcc, Synthesis.ends_constrainEqual_bind hchecks]
  refine (Synthesis.ends_constrainEqual.trans (and_iff_right hchallenge)).trans ?_
  simp only [List.append_assoc, List.singleton_append]
  rfl

/-- The bridge is written into the matrix that holds the tables. -/
theorem Proper.ends_bridge {l' : Layouter} {r : Felt} {signatures : List Bridge.SignedKey} {keys : List ConsumedKey}
    {shared : Bridge.Cells} :
    (c.bridge.assign sys ⟨1, 2, 3⟩ r signatures keys).Ends (planned.withWitness
        ⟨((Matrix.zero sys height).writeAll c.execution.tableCells).writeAll c.bridge.tableCells, []⟩) shared l' ↔
      ∃ slots, (Bridge.Slot.ofSignatures signatures keys = .ok slots ∧ ∀ slot ∈ slots, slot.Verifies) ∧
        shared = c.bridge.cells bridgeRow r ((Bridge.Columns.accumulators r slots signatures.length).headD 0)
          signatures.length ∧
        l' = planned.withWitness
          ⟨(((Matrix.zero sys height).writeAll c.execution.tableCells).writeAll c.bridge.tableCells).writeAll
            (c.bridge.bridgeCells verificationRow rangeRow bridgeRow r slots signatures.length),
          [] ++ c.bridge.bridgeCopies verificationRow rangeRow bridgeRow slots⟩ := by
  have hrows : (((Matrix.zero sys height).writeAll c.execution.tableCells).writeAll c.bridge.tableCells).rows = height := by
    rw [Matrix.rows_writeAll, Matrix.rows_writeAll, Matrix.rows_zero]
  refine (hc.bridge.ends_assign regions_planned (((hc.bridge.inMatrix _).writeAll _).writeAll _) ?_ ?_ ?_ ?_).trans
    (exists_congr fun _ => and_assoc.symm)
  all_goals
    rw [hrows]
    decide

/-- The synthesis, step by step: the layout and the tables always pass, then the bridge and the trace decide. -/
theorem Proper.ends_synthesis {trace : Trace} {signatures : List Bridge.SignedKey} {keys : List ConsumedKey} {w : Witness}
    {l : Layouter} :
    (synthesis sys c trace signatures keys).Ends ∅ w l ↔
      ∃ slots, (Bridge.Slot.ofSignatures signatures keys = .ok slots ∧ ∀ slot ∈ slots, slot.Verifies) ∧
        trace.rows.length = traceRows ∧ w = c.witnessOf sys trace slots signatures.length ∧
          l = { planned with witness? := none } := by
  have hbody : synthesis sys c trace signatures keys =
      Synthesis.planRegion "execution" traceRows >>= fun index =>
      Synthesis.planTable "opcode table" OpcodeTable.size >>= fun _ =>
      Bridge.Columns.plan >>= fun regions =>
      Synthesis.allocate sys >>= fun _ =>
      Synthesis.fillTable OpcodeTable.name c.execution.tableCells >>= fun _ =>
      c.bridge.load >>= fun _ =>
      c.bridge.assign sys regions trace.challenge signatures keys >>= fun shared =>
      Synthesis.region index >>= fun region =>
      Synthesis.fill region (c.execution.assign trace) >>= fun x =>
      Synthesis.commit sys x.2 >>= fun _ =>
      (do
        Synthesis.constrainEqual sys x.1.keyAcc.cell shared.keyAcc.cell
        Synthesis.constrainEqual sys x.1.checks.cell shared.checks.cell
        Synthesis.constrainEqual sys x.1.challenge.cell shared.challenge.cell : Synthesis Unit) >>= fun _ =>
      c.execution.exposePublic sys x.1 >>= fun _ => Synthesis.take := by
    simp only [synthesis, bind_assoc]
  have hallocated : planned.withWitness ⟨.zero sys planned.rows, []⟩ =
      planned.withWitness ⟨Matrix.zero sys height, []⟩ := by
    rw [rows_planned]
  have hplan : ∀ regions l', Bridge.Columns.plan.Ends (((∅ : Layouter).behind "execution" traceRows).withTable
      OpcodeTable.size) regions l' ↔ regions = ⟨1, 2, 3⟩ ∧ l' = planned :=
    fun _ _ => Bridge.ends_plan.trans (and_iff_right rfl)
  have hregion : planned.regions[(∅ : Layouter).regions.length]? = some ⟨"execution", 0, traceRows⟩ := rfl
  have hopcodes : ∀ x ∈ c.execution.tableCells, x.2.1 < planned.tableRows ∧
      x.2.1 < (Matrix.zero sys height).rows ∧ (Matrix.zero sys height).HasColumn x.1 :=
    hc.execution.tableCells_fit (by decide) (by rw [tableRows_planned]; decide)
  have htables : ∀ column ∈ c.bridge.tableColumns,
      ((Matrix.zero sys height).writeAll c.execution.tableCells).HasColumn column := fun column hcolumn =>
    (Matrix.hasColumn_writeAll ..).mpr (hc.bridge.hasColumn_zero _ (.inr (List.mem_append_right _ hcolumn)))
  have hload : ∀ {l' u}, c.bridge.load.Ends (planned.withWitness
      ⟨(Matrix.zero sys height).writeAll c.execution.tableCells, []⟩) u l' ↔ _ :=
    Bridge.Columns.ends_load htables (Nat.le_of_eq tableRows_planned.symm)
      (by rw [Matrix.rows_writeAll, Matrix.rows_zero]; decide)
  have hrows : ∀ {cells cells' cells''},
      ((((Matrix.zero sys height).writeAll cells).writeAll cells').writeAll cells'').rows = height := by
    intro cells cells' cells''
    simp only [Matrix.rows_writeAll, Matrix.rows_zero]
  have hkept : ∀ {cells cells' cells''} column, (Matrix.zero sys height).HasColumn column →
      ((((Matrix.zero sys height).writeAll cells).writeAll cells').writeAll cells'').HasColumn column := by
    intro cells cells' cells'' column h
    simp only [Matrix.hasColumn_writeAll]
    exact h
  rw [hbody, Synthesis.ends_planRegion_bind rfl, Synthesis.ends_planTable_bind rfl, Synthesis.ends_bind_of hplan,
    Synthesis.ends_allocate_bind rfl, hallocated, Synthesis.ends_fillTable_bind hopcodes,
    Synthesis.ends_bind_of_unit fun _ _ => hload, Synthesis.ends_bind_of_exists fun _ _ => hc.ends_bridge]
  refine exists_congr fun slots => and_congr_right fun _ => ?_
  rw [Synthesis.ends_region_bind hregion, Synthesis.ends_bind_of_and fun _ _ => hc.ends_execution hrows hkept]
  refine and_congr_right fun _ => ?_
  rw [Synthesis.ends_commit_bind (by nofun), Synthesis.ends_bind_of_unit fun _ _ => hc.ends_link,
    Synthesis.ends_bind_of_unit fun _ _ => hc.execution.ends_exposePublic, witnessOf_eq]
  exact Synthesis.ends_take

/-- The synthesis of a trace ends well exactly when it has the full number of rows, the signatures go with the keys and
every slot verifies; it leaves the witness of the trace over the slots. -/
theorem Proper.synthesis_ok {trace : Trace} {signatures : List Bridge.SignedKey} {keys : List ConsumedKey} {w : Witness} :
    (∃ l, (synthesis sys c trace signatures keys).run ∅ = .ok (w, l)) ↔
      trace.rows.length = traceRows ∧ ∃ slots, Bridge.Slot.ofSignatures signatures keys = .ok slots ∧
        (∀ slot ∈ slots, slot.Verifies) ∧ w = c.witnessOf sys trace slots signatures.length := by
  constructor
  · rintro ⟨l, h⟩
    obtain ⟨slots, ⟨hslots, hverifies⟩, hrows, hw, -⟩ := hc.ends_synthesis.mp h
    exact ⟨hrows, slots, hslots, hverifies, hw⟩
  · rintro ⟨hrows, slots, hslots, hverifies, hw⟩
    exact ⟨_, hc.ends_synthesis.mpr ⟨slots, ⟨hslots, hverifies⟩, hrows, hw, rfl⟩⟩

end

end Columns

end ScriptCircuit.Circuit
