import Mathlib
import ScriptCircuit.Proofs.Execution.Acceptance
import ScriptCircuit.Proofs.Execution.Honest

/-!
# Which gates fail on the trace of a run

The trace of any run satisfies all gates, the lookup and the copy constraints but two gates: that of the enabled opcodes
fails on the rows that read an opcode that is not enabled, and that of the final item fails on every row from the end of the
script on when the item on top is false.
-/

namespace ScriptCircuit.Execution

/-! ## The rows that fail -/

/-- The offsets of the rows that read a byte of the script as an opcode that is not enabled. -/
def disabledOffsets (trace : Trace) : List Nat :=
  (List.range' 1 trace.script.length).filter fun i =>
    (trace.rows[i]?).any fun row => row.mode = .opcode ∧ Opcode.enabled row.opcode = false

/-- The offsets of the rows behind the script: those of padding and the last one. -/
def finalOffsets (trace : Trace) : List Nat :=
  List.range' (trace.script.length + 1) (maxScriptSize + 1 - trace.script.length)

/-- The final item is false: zero or the negative zero. -/
def EndsFalse (trace : Trace) : Prop :=
  trace.lastRow.stack.top = 0 ∨ trace.lastRow.stack.top = negativeZero

instance (trace : Trace) : Decidable (EndsFalse trace) := inferInstanceAs (Decidable (_ ∨ _))

/-- The failures of a trace in a region that starts at a row. -/
def traceFailures (start : Nat) (trace : Trace) : List Failure :=
  (disabledOffsets trace).map (fun i => .gate "only enabled opcodes" 0 (start + i)) ++
    if EndsFalse trace then (finalOffsets trace).map fun i => .gate "stack top is true after execution" 0 (start + i) else []

/-- The final offsets are those behind the script. -/
theorem mem_finalOffsets {trace : Trace} {i : Nat} :
    i ∈ finalOffsets trace ↔ trace.script.length < i ∧ i < maxScriptSize + 2 := by
  rw [finalOffsets, List.mem_range'_1]
  omega

namespace Columns.Assigned

variable {c : Columns} {claim : Claim} {start : Nat} {trace : Trace} (h : c.Assigned claim start trace)
include h

/-- In an assigned region every zero test is exact. -/
theorem exact : c.Exact claim start := by
  have htests : ∀ i, i < traceRows →
      c.Tested (claim.read (start + i)) ∧ c.topFalse.Exact (claim.read (start + i)) := by
    intro i hi
    rw [← h.full] at hi
    exact h.tests (List.getElem?_eq_getElem hi)
  exact
    { placed := h.placed
      tested := fun i hi => (htests _ (Nat.succ_lt_succ (Nat.lt_succ_of_lt hi))).1
      topTested := fun i hi _ => (htests _ (Nat.succ_lt_succ (Nat.lt_succ_of_le hi))).2 }

/-- The views of the trace of a run. -/
theorem honest {script : List UInt8} {r : Felt} {slots : Stack} (hrun : Trace.ofStack script r slots = .ok trace) :
    ∃ states, Honest (fun i => c.rowView claim (start + i)) trace.challenge trace.script states ∧
      ∀ i, i < traceRows → trace.rows[i]? = some (Trace.rowAt trace.challenge trace.script states i) := by
  obtain ⟨hfit, states, hzero, hsteps, hmode, ⟨rfl, rfl, -⟩, -, hrow⟩ := Trace.ofStack_eq_ok.mp hrun
  refine ⟨states, ?_, hrow⟩
  exact
    { fit := hfit
      zero := by rw [hzero]; rfl
      steps := hsteps
      final := hmode
      shows := fun i hi => h.shows (hrow i hi)
      classified := fun i hi => h.classified hi (hrow _ (Nat.succ_lt_succ (Nat.lt_succ_of_lt hi))) }

variable {states : Nat → State} (hh : Honest (fun i => c.rowView claim (start + i)) trace.challenge trace.script states)
  (hrows : ∀ i, i < traceRows → trace.rows[i]? = some (Trace.rowAt trace.challenge trace.script states i))
include hh hrows

omit h in
/-- A byte of the script fails exactly when its row is that of an opcode that is not enabled. -/
theorem mem_disabledOffsets {i : Nat} (hi : i < maxScriptSize) :
    i + 1 ∈ disabledOffsets trace ↔
      (c.rowView claim (start + (i + 1))).AtOpcode ∧ (c.rowView claim (start + (i + 1))).enabled ≠ 1 := by
  rw [disabledOffsets, List.mem_filter, List.mem_range'_1]
  by_cases hbyte : i < trace.script.length
  · have hrow : trace.rows[i + 1]? = some (State.rowOfByte trace.challenge trace.script states i hbyte) := by
      rw [hrows (i + 1) (Nat.succ_lt_succ (Nat.lt_succ_of_lt hi)), Trace.rowAt, if_neg (Nat.succ_ne_zero i)]
      simp only [Nat.add_sub_cancel, hbyte, dif_pos]
    have hrange : 1 ≤ i + 1 ∧ i + 1 < 1 + trace.script.length := ⟨by omega, by omega⟩
    rw [hrow, Option.any_some, decide_eq_true_iff, and_iff_right hrange, hh.atOpcode_iff hbyte,
      (hh.classified_byte hbyte).enabled]
    refine and_congr_right fun _ => ?_
    change Opcode.enabled trace.script[i] = false ↔ _
    cases Opcode.enabled trace.script[i] <;> simp
  · refine iff_of_false (fun hmem => ?_) fun hfails => ?_
    · omega
    · exact hbyte ((hh.scriptLeft_ne_zero (Nat.le_of_lt hi)).mp hfails.1.1)

/-- The gate of the enabled opcodes fails on the rows of opcodes that are not enabled. -/
theorem enabledOpcode_failures : claim.gateFailures c.enabledOpcode =
    (disabledOffsets trace).map fun i => Failure.gate "only enabled opcodes" 0 (start + i) := by
  refine claim.gateFailures_eq_map ((List.pairwise_lt_range' 1).filter _) fun row => ?_
  change row < claim.rows ∧ ¬c.enabledOpcode.Holds (claim.read row) ↔ _
  constructor
  · rintro ⟨hrow, hfails⟩
    obtain ⟨i, hi, rfl, hopcode⟩ := (h.exact.enabledOpcode_fails_iff hrow).mp hfails
    exact ⟨i + 1, (mem_disabledOffsets hh hrows hi).mpr hopcode, rfl⟩
  · rintro ⟨i, hmem, rfl⟩
    have hrange := List.mem_range'_1.mp (List.mem_filter.mp hmem).1
    obtain ⟨i, rfl⟩ := Nat.exists_eq_succ_of_ne_zero (Nat.ne_of_gt hrange.1)
    have hi : i < maxScriptSize := hh.lt_maxScriptSize (by omega)
    have hrow := h.exact.row_lt (Nat.succ_lt_succ (Nat.lt_succ_of_lt hi))
    exact ⟨hrow, (h.exact.enabledOpcode_fails_iff hrow).mpr ⟨i, hi, rfl, (mem_disabledOffsets hh hrows hi).mp hmem⟩⟩

/-- From the end of the script on the rows hold the final item. -/
theorem topTrue_iff {i : Nat} (hi : trace.script.length ≤ i) (hlast : i ≤ maxScriptSize) :
    (c.rowView claim (start + (i + 1))).TopTrue ↔ ¬EndsFalse trace := by
  have hfinal : trace.lastRow.stack = (states trace.script.length).stack := by
    rw [Trace.lastRow_eq h.full (hrows _ (Nat.lt_succ_self (maxScriptSize + 1))), Trace.rowAt, if_neg (Nat.succ_ne_zero _),
      Nat.add_sub_cancel, dif_neg (Nat.not_lt.mpr hh.fit)]
    rfl
  obtain ⟨hstack, -⟩ := hh.final_state (Nat.le_succ_of_le hi) (Nat.succ_le_succ hlast)
  rw [View.TopTrue, EndsFalse, hfinal, ← hstack, not_or]

/-- The truth gate fails exactly on the final rows of a run that ends in a false item. -/
theorem topTrue_fails_iff {row : Nat} (hrow : row < claim.rows) :
    ¬c.topTrue.Holds (claim.read row) ↔ (∃ i ∈ finalOffsets trace, row = start + i) ∧ EndsFalse trace := by
  rw [h.exact.topTrue_fails_iff hh.rows hrow, hh.length_eq]
  constructor
  · rintro ⟨i, hi, rfl, hbehind, hfalse⟩
    rw [topTrue_iff h hh hrows hbehind hi, not_not] at hfalse
    exact ⟨⟨i + 1, mem_finalOffsets.mpr ⟨by omega, by omega⟩, rfl⟩, hfalse⟩
  · rintro ⟨⟨i, hmem, rfl⟩, hends⟩
    obtain ⟨hbehind, hlast⟩ := mem_finalOffsets.mp hmem
    obtain ⟨i, rfl⟩ := Nat.exists_eq_succ_of_ne_zero (Nat.ne_zero_of_lt hbehind)
    have hi : i ≤ maxScriptSize := by omega
    refine ⟨i, hi, rfl, Nat.le_of_lt_succ hbehind, ?_⟩
    rw [topTrue_iff h hh hrows (Nat.le_of_lt_succ hbehind) hi, not_not]
    exact hends

/-- The gate of the final item fails behind the script when the item is false. -/
theorem topTrue_failures : claim.gateFailures c.topTrue =
    if EndsFalse trace then
      (finalOffsets trace).map fun i => Failure.gate "stack top is true after execution" 0 (start + i)
    else [] := by
  by_cases hends : EndsFalse trace
  · rw [if_pos hends]
    refine claim.gateFailures_eq_map (List.pairwise_lt_range' 1) fun row => ?_
    constructor
    · rintro ⟨hrow, hfails⟩
      exact ((topTrue_fails_iff h hh hrows hrow).mp hfails).1
    · rintro ⟨i, hmem, rfl⟩
      have hrow : start + i < claim.rows := h.exact.row_lt (mem_finalOffsets.mp hmem).2
      exact ⟨hrow, (topTrue_fails_iff h hh hrows hrow).mpr ⟨⟨i, hmem, rfl⟩, hends⟩⟩
  · rw [if_neg hends, Claim.gateFailures_eq_nil]
    intro row hrow
    by_contra hfails
    exact hends ((topTrue_fails_iff h hh hrows hrow).mp hfails).2

/-- The failures of all gates. -/
theorem gates_failures : c.gates.flatMap claim.gateFailures = traceFailures start trace := by
  have hquiet : ∀ g ∈ c.quietGates, claim.gateFailures g = [] := fun g hg =>
    (claim.gateFailures_eq_nil g).mpr fun row hrow => h.exact.quiet hh.rows hrow g hg
  simp only [quietGates, stepGates, List.forall_mem_append, List.forall_mem_cons] at hquiet
  simp only [gates, List.flatMap_cons, List.flatMap_nil, hquiet, List.nil_append, List.append_nil,
    enabledOpcode_failures h hh hrows, topTrue_failures h hh hrows]
  rfl

end Columns.Assigned

/-! ## The whole check -/

-- Neither the height of the matrix nor its cells are computed here.
attribute [local irreducible] Layouter.rows Matrix.writeAll

/-- The claim about the witness of a trace. -/
def claimOf (trace : Trace) (before : List (String × Nat)) : Claim :=
  ⟨system.2, system.1.witnessOf system.2 trace before, #[trace.publicValues.toArray]⟩

/-- The claim of a full trace is assigned as the trace says. -/
theorem claimOf_assigned {trace : Trace} {before : List (String × Nat)} (hrows : trace.rows.length = traceRows)
    (hsize : startRow before + traceRows < UInt64.size) :
    system.1.Assigned (claimOf trace before) (startRow before) trace := by
  refine Columns.system_proper.assigned (fun column _ row x => List.mem_append) hrows hsize (Columns.end_le_rows hsize) ?_ ?_
  · exact Matrix.rows_writeAll (Matrix.zero system.2 (Columns.planned before).rows) _
  · intro column row hkind
    rw [Claim.value, if_neg hkind]
    rfl

/-- The opcode table of the claim exists. -/
theorem claimOf_tables {trace : Trace} {before : List (String × Nat)} : (claimOf trace before).HasTables := by
  intro l hl column hcolumn
  obtain rfl := List.mem_singleton.mp hl
  rw [Columns.byteLookup_table] at hcolumn
  exact (Matrix.hasColumn_writeAll ..).mpr
    (Columns.system_proper.hasColumn_zero _ (.inr (List.mem_append_right _ hcolumn)))

/-- The copy constraints of the claim hold for the public values of its run. -/
theorem claimOf_agrees {script : List UInt8} {r : Felt} {slots : Stack} {trace : Trace} {before : List (String × Nat)}
    (hrun : Trace.ofStack script r slots = .ok trace) (hsize : startRow before + traceRows < UInt64.size) :
    ∀ copy ∈ (claimOf trace before).witness.copies, (claimOf trace before).Agrees copy := by
  obtain ⟨-, states, -, -, -, ⟨hscript, hchallenge, hcombination⟩, hfull, hrow⟩ := Trace.ofStack_eq_ok.mp hrun
  have h : system.1.Assigned (claimOf trace before) (startRow before) trace := claimOf_assigned hfull hsize
  have hfirst := h.shows (hrow 0 (Nat.succ_pos _))
  have hagrees : ∀ column ∈ system.1.adviceColumns, ∀ k, (claimOf trace before).value column (startRow before) =
      trace.publicValues.toArray.getD k 0 →
      (claimOf trace before).Agrees ⟨⟨column, startRow before⟩, ⟨system.1.publicInput, k⟩⟩ := by
    intro column hcolumn k hvalue
    have hkind : column.kind ≠ .publicInput := by
      rw [(Columns.system_proper.advice_kind column hcolumn).1]
      decide
    refine ⟨?_, ?_, hvalue⟩
    · rw [Claim.HasCell, if_neg hkind]
      exact ⟨h.exact.row_lt (i := 0) (Nat.succ_pos _),
        (Matrix.hasColumn_writeAll ..).mpr (Columns.system_proper.hasColumn_zero _ (.inl hcolumn))⟩
    · rw [Claim.HasCell, if_pos Columns.system_proper.public_kind]
      exact Nat.succ_pos _
  change ∀ copy ∈ system.1.publicCopies (startRow before), _
  simp only [Columns.publicCopies, List.forall_mem_cons, List.not_mem_nil, false_implies, implies_true, and_true]
  refine ⟨hagrees _ (by simp [Columns.adviceColumns]) 0 ?_, hagrees _ (by simp [Columns.adviceColumns]) 1 ?_,
    hagrees _ (by simp [Columns.adviceColumns]) 2 hfirst.challenge⟩
  · refine hfirst.scriptLeft.trans ?_
    change Felt.ofNat script.length = Felt.ofNat trace.script.length
    rw [hscript]
  · exact hfirst.scriptAcc.trans hcombination.symm

/-- The check of the trace of a run. -/
theorem claimOf_failures {script : List UInt8} {r : Felt} {slots : Stack} {trace : Trace} {before : List (String × Nat)}
    (hrun : Trace.ofStack script r slots = .ok trace) (hsize : startRow before + traceRows < UInt64.size) :
    (claimOf trace before).failures = .ok (traceFailures (startRow before) trace) := by
  obtain ⟨-, -, -, -, -, -, hfull, -⟩ := Trace.ofStack_eq_ok.mp hrun
  have h := claimOf_assigned hfull hsize
  obtain ⟨states, hh, hrows⟩ := h.honest hrun
  have hgates := Columns.Assigned.gates_failures h hh hrows
  have hlookup : (claimOf trace before).lookupFailures system.1.byteLookup = [] :=
    (Claim.lookupFailures_eq_nil ..).mpr fun row hrow =>
      h.exact.finds (fun i hi => h.placed.table_of_classified (hh.classified i hi)) hrow
  rw [Claim.failures_of_agrees _ claimOf_tables (claimOf_agrees hrun hsize)]
  change Except.ok (system.1.gates.flatMap (claimOf trace before).gateFailures ++
    [system.1.byteLookup].flatMap (claimOf trace before).lookupFailures) = _
  rw [hgates, List.flatMap_singleton, hlookup, List.append_nil]

/-- The claim of a synthesized trace with its public values. -/
theorem make_of_built {trace : Trace} {before : List (String × Nat)} {height : Nat} {w : Witness} {cells : Cells}
    {l : Layouter} (hbuilt : (synthesis system.2 system.1 trace before height).run ∅ = .ok ((w, cells), l)) :
    Claim.make system.2 w [trace.publicValues] = .ok (claimOf trace before) := by
  obtain ⟨-, hsize, -, rfl⟩ := Columns.system_proper.synthesis_ok.mp ⟨l, hbuilt⟩
  refine Claim.make_eq_ok.mpr ⟨rfl, ?_, rfl⟩
  intro values hvalues
  obtain rfl := List.mem_singleton.mp hvalues
  have hrows : (system.1.witnessOf system.2 trace before).matrix.rows = (Columns.planned before).rows :=
    Matrix.rows_writeAll (Matrix.zero system.2 (Columns.planned before).rows) _
  have hend : startRow before + 522 ≤ (Columns.planned before).rows := Columns.end_le_rows hsize
  rw [hrows]
  change 3 ≤ _
  omega

/-- A trace without failures is accepted with its public values, and so is its own advice. -/
theorem accepted_of_run {script : List UInt8} {r : Felt} {slots : Stack} {trace : Trace} {before : List (String × Nat)}
    (hrun : Trace.ofStack script r slots = .ok trace) (hsize : startRow before + traceRows < UInt64.size)
    (hnone : traceFailures (startRow before) trace = []) :
    ∃ (w : Witness) (cells : Cells) (l : Layouter) (claim : Claim),
      (synthesis system.2 system.1 trace before traceRows).run ∅ = .ok ((w, cells), l) ∧
        Claim.make system.2 (w.withAdvice w.matrix.advice) [trace.publicValues] = .ok claim ∧ claim.failures = .ok [] := by
  obtain ⟨-, -, -, -, -, -, hfull, -⟩ := Trace.ofStack_eq_ok.mp hrun
  obtain ⟨l, hbuilt⟩ := Columns.system_proper.synthesis_ok.mpr ⟨⟨rfl, hfull⟩, hsize, rfl, rfl⟩
  refine ⟨_, _, l, claimOf trace before, hbuilt, make_of_built hbuilt, ?_⟩
  rw [claimOf_failures hrun hsize, hnone]

/-- A script whose trace has given public values and no failures is accepted with these, in a region that starts at row zero. -/
theorem exists_accepted {script : List UInt8} {r : Felt} {slots : Stack} {values : List Felt}
    (h : ∃ trace, Trace.ofStack script r slots = .ok trace ∧ trace.publicValues = values ∧
      traceFailures (startRow []) trace = []) :
    ∃ (trace : Trace) (w : Witness) (cells : Cells) (l : Layouter) (claim : Claim),
      (synthesis system.2 system.1 trace [] traceRows).run ∅ = .ok ((w, cells), l) ∧
        Claim.make system.2 (w.withAdvice w.matrix.advice) [values] = .ok claim ∧ claim.failures = .ok [] := by
  obtain ⟨trace, hrun, rfl, hnone⟩ := h
  exact ⟨trace, accepted_of_run hrun (by decide) hnone⟩

/-- The script of one byte that pushes the number one is accepted, with its length, its combination and the challenge. -/
theorem exists_accepted_pushNumber :
    ∃ (trace : Trace) (w : Witness) (cells : Cells) (l : Layouter) (claim : Claim),
      (synthesis system.2 system.1 trace [] traceRows).run ∅ = .ok ((w, cells), l) ∧
        Claim.make system.2 (w.withAdvice w.matrix.advice) [[1, 0x51, 7]] = .ok claim ∧ claim.failures = .ok [] := by
  have hrun : ∃ trace, Trace.ofStack [0x51] 7 .empty = .ok trace ∧ trace.publicValues = [1, 0x51, 7] ∧
      traceFailures (startRow []) trace = [] := by
    refine ⟨_, rfl, ?_⟩
    decide +kernel
  exact exists_accepted hrun

/-- A trace has no failures exactly when every executed opcode is enabled and the final item is true. -/
theorem traceFailures_eq_nil {trace : Trace} (start : Nat) (hfit : trace.script.length ≤ maxScriptSize) :
    traceFailures start trace = [] ↔
      (∀ i row, 0 < i → i ≤ trace.script.length → trace.rows[i]? = some row → row.mode = .opcode →
        Opcode.enabled row.opcode = true) ∧ ¬EndsFalse trace := by
  have hdisabled : disabledOffsets trace = [] ↔ ∀ i row, 0 < i → i ≤ trace.script.length → trace.rows[i]? = some row →
      row.mode = .opcode → Opcode.enabled row.opcode = true := by
    rw [disabledOffsets, List.filter_eq_nil_iff]
    constructor
    · intro h i row hpos hi hrow hmode
      have hnone := h i (List.mem_range'_1.mpr ⟨hpos, by omega⟩)
      rw [hrow, Option.any_some, decide_eq_true_iff, not_and, Bool.not_eq_false] at hnone
      exact hnone hmode
    · intro h i hmem
      obtain ⟨hpos, hi⟩ := List.mem_range'_1.mp hmem
      cases hrow : trace.rows[i]? with
      | none => simp
      | some row =>
        rw [Option.any_some, decide_eq_true_iff, not_and, Bool.not_eq_false]
        exact h i row hpos (by omega) hrow
  have hfinal : finalOffsets trace ≠ [] := by
    have hmem : maxScriptSize + 1 ∈ finalOffsets trace := mem_finalOffsets.mpr ⟨Nat.lt_succ_of_le hfit, Nat.lt_succ_self _⟩
    exact List.ne_nil_of_mem hmem
  rw [traceFailures, List.append_eq_nil_iff, List.map_eq_nil_iff, hdisabled]
  refine and_congr_right fun _ => ?_
  by_cases hends : EndsFalse trace
  · rw [if_pos hends, List.map_eq_nil_iff]
    exact iff_of_false hfinal (not_not_intro hends)
  · rw [if_neg hends]
    exact iff_of_true rfl hends

/-- The trace of any run is assigned in a region that starts at any row, as long as no more than half of the words are needed as
rows, and never when the rows have no numbers. Its check finds exactly one failure for every byte that is read as an opcode and
is not enabled, and one for every row behind the script when the final item is false. -/
theorem run_fails_exactly {script : List UInt8} {r : Felt} {slots : Stack} {trace : Trace}
    (hrun : Trace.ofStack script r slots = .ok trace) (before : List (String × Nat)) :
    (startRow before + traceRows ≤ 2 ^ 63 →
        ∃ w cells l, (synthesis system.2 system.1 trace before traceRows).run ∅ = .ok ((w, cells), l)) ∧
      ∀ w cells l, (synthesis system.2 system.1 trace before traceRows).run ∅ = .ok ((w, cells), l) →
        startRow before + traceRows < UInt64.size ∧
          ∃ claim, Claim.make system.2 w [trace.publicValues] = .ok claim ∧
            claim.failures = .ok (traceFailures (startRow before) trace) ∧
            (claim.failures = .ok [] ↔
              (∀ i row, 0 < i → i ≤ script.length → trace.rows[i]? = some row → row.mode = .opcode →
                Opcode.enabled row.opcode = true) ∧
              trace.lastRow.stack.top ≠ 0 ∧ trace.lastRow.stack.top ≠ negativeZero) := by
  obtain ⟨hfit, -, -, -, -, ⟨rfl, -, -⟩, hfull, -⟩ := Trace.ofStack_eq_ok.mp hrun
  constructor
  · intro hsize
    have hwords : startRow before + traceRows < UInt64.size := Nat.lt_of_le_of_lt hsize (by decide)
    obtain ⟨l, hbuilt⟩ := Columns.system_proper.synthesis_ok.mpr ⟨⟨rfl, hfull⟩, hwords, rfl, rfl⟩
    exact ⟨_, _, l, hbuilt⟩
  · intro w cells l hbuilt
    obtain ⟨-, hsize, -, -⟩ := Columns.system_proper.synthesis_ok.mp ⟨l, hbuilt⟩
    have hfailures := claimOf_failures hrun hsize
    refine ⟨hsize, claimOf trace before, make_of_built hbuilt, hfailures, ?_⟩
    rw [hfailures, Except.ok.injEq, traceFailures_eq_nil _ hfit, EndsFalse, not_or]

/-- A script with a byte that is not enabled, in a region that starts at row 3. -/
theorem run_fails_exactly_once :
    ∃ trace w cells l claim, Trace.ofStack [0x51, 0xff] 7 .empty = .ok trace ∧
      (synthesis system.2 system.1 trace [("ahead", 3)] traceRows).run ∅ = .ok ((w, cells), l) ∧
      Claim.make system.2 w [trace.publicValues] = .ok claim ∧
      claim.failures = .ok [.gate "only enabled opcodes" 0 5] := by
  obtain ⟨trace, hrun, hfailures⟩ : ∃ trace, Trace.ofStack [0x51, 0xff] 7 .empty = .ok trace ∧
      traceFailures (startRow [("ahead", 3)]) trace = [.gate "only enabled opcodes" 0 5] := by
    refine ⟨_, rfl, ?_⟩
    decide +kernel
  obtain ⟨hbuilt, hchecked⟩ := run_fails_exactly hrun [("ahead", 3)]
  obtain ⟨w, cells, l, hsynthesis⟩ := hbuilt (by decide)
  obtain ⟨-, claim, hmake, hclaim, -⟩ := hchecked w cells l hsynthesis
  rw [hfailures] at hclaim
  exact ⟨trace, w, cells, l, claim, hrun, hsynthesis, hmake, hclaim⟩

end ScriptCircuit.Execution
