import Mathlib
import ScriptCircuit.Proofs.Execution.Gates
import ScriptCircuit.Proofs.Execution.Placement

/-!
# Regions that satisfy the gates

What the gates and the lookup say about the rows of a region, one statement for each kind of row: the first row, a row of a
script byte or of padding with its neighbours, and the last row. `Accepted` is a region whose gates and lookup all hold, for
whatever values in its advice columns.
-/

namespace ScriptCircuit.Execution

/-- The gates of the first row. -/
structure FirstStep (cur next : View) : Prop where
  dataLeft : cur.dataLeft = 0
  lengthLeft : cur.lengthLeft = 0
  opens : next.Opens
  keyAcc : cur.keyAcc = 0
  checks : cur.checks = 0
  scriptLeft : next.scriptLeft = cur.scriptLeft

/-- The gates of the row of a script byte or of padding, those of the enabled opcodes and of the final item apart. -/
structure ByteStep (prev cur next : View) : Prop where
  challenge : cur.challenge = prev.challenge
  script : cur.scriptLeft ≠ 0 →
    cur.opcode + cur.challenge * cur.scriptAcc = prev.scriptAcc ∧ next.scriptLeft + 1 = cur.scriptLeft
  behind : cur.scriptLeft = 0 → cur.scriptAcc = 0 ∧ next.scriptLeft = 0
  frozen : cur.scriptLeft = 0 →
    cur.stack = prev.stack ∧ cur.opcode = .ofNat 0x61 ∧ cur.dataLeft = 0 ∧ cur.lengthLeft = 0 ∧
      cur.keyAcc = prev.keyAcc ∧ cur.checks = prev.checks
  pushNumber : cur.AtOpcode ∧ cur.indicator .pushNumber ≠ 0 →
    cur.stack = prev.stack.push (cur.opcode - .ofNat 0x50) ∧ next.Opens
  pushEmpty : cur.AtOpcode ∧ cur.indicator .pushEmpty ≠ 0 → cur.stack = prev.stack.push negativeZero ∧ next.Opens
  nop : cur.AtOpcode ∧ cur.nop ≠ 0 → cur.stack = prev.stack ∧ next.Opens
  pushBytes : cur.AtOpcode ∧ cur.indicator .pushBytes ≠ 0 →
    cur.stack = prev.stack.push 0 ∧ next.dataLeft = cur.opcode ∧ next.lengthLeft = 0
  pushData : ∀ k width, OpcodeClass.lengthWidth? k = some width → cur.AtOpcode ∧ cur.indicator k ≠ 0 →
    cur.stack = prev.stack.push 0 ∧ next.lengthLeft = .ofNat width ∧ next.lengthWeight = 1
  dataByte : cur.AtData →
    cur.stack = prev.stack.setTop (cur.opcode + cur.challenge * prev.stack.top) ∧ next.dataLeft + 1 = cur.dataLeft ∧
      next.lengthLeft = 0
  lengthByte : cur.AtLength →
    cur.dataLeft = cur.opcode * cur.lengthWeight + prev.dataLeft ∧ next.lengthLeft + 1 = cur.lengthLeft ∧
      (cur.lengthLeft ≠ 1 → next.lengthWeight = .ofNat 256 * cur.lengthWeight) ∧
      (cur.lengthLeft = 1 → next.dataLeft = cur.dataLeft ∧ cur.dataLeft ≠ 0) ∧ cur.stack = prev.stack
  checkSignature : cur.AtOpcode ∧ cur.indicator .checkSignature ≠ 0 →
    (prev.flag = 0 ∨ prev.flag = 1) ∧ cur.stack = prev.stack.pop.pop.push prev.flag ∧
      cur.keyAcc = prev.keyAcc + prev.flag * (prev.keyAcc * (cur.challenge - 1) + prev.stack.top) ∧
      cur.checks = prev.checks + prev.flag ∧ next.Opens
  accumulators : ¬(cur.AtOpcode ∧ cur.indicator .checkSignature = 1) →
    cur.keyAcc = prev.keyAcc ∧ cur.checks = prev.checks

/-- The gates of the last row, that of the final item apart. -/
structure LastStep (prev cur : View) : Prop where
  challenge : cur.challenge = prev.challenge
  scriptLeft : cur.scriptLeft = 0
  dataLeft : cur.dataLeft = 0
  lengthLeft : cur.lengthLeft = 0
  scriptAcc : cur.scriptAcc = 0
  keyAcc : cur.keyAcc = prev.keyAcc
  checks : cur.checks = prev.checks
  stack : cur.stack = prev.stack

/-- A row of the opcode table stands in a view. -/
structure View.Classified (v : View) (byte : UInt8) : Prop where
  opcode : v.opcode = .ofByte byte
  enabled : v.enabled = if Opcode.enabled byte then 1 else 0
  indicator : ∀ k, v.indicator k = if Opcode.class? byte = some k then 1 else 0

namespace Columns

variable {c : Columns} {read : Column → Int → Felt}

/-- The gates that `ByteStep` sums up. -/
def stepGates (c : Columns) : List Gate :=
  [c.sameChallenge, c.scriptByte, c.frozen, c.pushNumber, c.pushEmpty, c.nop, c.pushBytes,
    c.pushData c.indicators.pushData1 1, c.pushData c.indicators.pushData2 2, c.pushData c.indicators.pushData4 4,
    c.dataByte, c.lengthByte, c.checkSignature, c.accumulators]

/-- On the row of a byte the gates say what the step between the rows is. -/
theorem byteStep_iff (hbyte : read c.isByte 0 = 1) (hlast : read c.isLast 0 = 0) (ht : c.Tested read) :
    ByteStep (c.prev read) (c.cur read) (c.next read) ↔ ∀ g ∈ c.stepGates, g.Holds read := by
  have hpushData : (∀ k width, OpcodeClass.lengthWidth? k = some width →
        (c.cur read).AtOpcode ∧ (c.cur read).indicator k ≠ 0 →
        (c.cur read).stack = (c.prev read).stack.push 0 ∧ (c.next read).lengthLeft = .ofNat width ∧
          (c.next read).lengthWeight = 1) ↔
      (c.pushData c.indicators.pushData1 1).Holds read ∧ (c.pushData c.indicators.pushData2 2).Holds read ∧
        (c.pushData c.indicators.pushData4 4).Holds read := by
    rw [holds_pushData hbyte ht, holds_pushData hbyte ht, holds_pushData hbyte ht]
    constructor
    · intro h
      exact ⟨h .pushData1 1 rfl, h .pushData2 2 rfl, h .pushData4 4 rfl⟩
    · rintro ⟨h₁, h₂, h₄⟩ k width hk
      cases k <;> cases hk
      · exact h₁
      · exact h₂
      · exact h₄
  simp only [stepGates, List.forall_mem_cons, List.not_mem_nil, false_implies, implies_true, and_true]
  rw [holds_sameChallenge_byte hbyte hlast, holds_scriptByte hbyte ht, holds_frozen hbyte ht, holds_pushNumber hbyte ht,
    holds_pushEmpty hbyte ht, holds_nop hbyte ht, holds_pushBytes hbyte ht, holds_dataByte hbyte ht,
    holds_lengthByte hbyte ht, holds_checkSignature hbyte ht, holds_accumulators hbyte ht]
  constructor
  · intro h
    obtain ⟨h₁, h₂, h₄⟩ := hpushData.mp h.pushData
    exact ⟨h.challenge, ⟨h.script, h.behind⟩, h.frozen, h.pushNumber, h.pushEmpty, h.nop, h.pushBytes, h₁, h₂, h₄,
      h.dataByte, h.lengthByte, h.checkSignature, h.accumulators⟩
  · rintro ⟨hchallenge, ⟨hscript, hbehind⟩, hfrozen, hnumber, hempty, hnop, hbytes, h₁, h₂, h₄, hdata, hlength, hcheck, hacc⟩
    exact ⟨hchallenge, hscript, hbehind, hfrozen, hnumber, hempty, hnop, hbytes, hpushData.mpr ⟨h₁, h₂, h₄⟩, hdata, hlength,
      hcheck, hacc⟩

/-- On the first row its gate says how the region starts. -/
theorem firstStep_iff (hfirst : read c.isFirst 0 = 1) :
    FirstStep (c.cur read) (c.next read) ↔ c.firstRow.Holds read := by
  rw [holds_firstRow hfirst]
  constructor
  · intro h
    exact ⟨h.dataLeft, h.lengthLeft, h.opens.1, h.opens.2, h.keyAcc, h.checks, h.scriptLeft⟩
  · rintro ⟨hdata, hlength, hdata', hlength', hkey, hchecks, hscript⟩
    exact ⟨hdata, hlength, ⟨hdata', hlength'⟩, hkey, hchecks, hscript⟩

/-- On the last row its gates say how the region ends. -/
theorem lastStep_iff (hbyte : read c.isByte 0 = 0) (hlast : read c.isLast 0 = 1) :
    LastStep (c.prev read) (c.cur read) ↔ c.sameChallenge.Holds read ∧ c.lastRow.Holds read := by
  rw [holds_sameChallenge_last hbyte hlast, holds_lastRow hlast]
  constructor
  · intro h
    exact ⟨h.challenge, h.scriptLeft, h.dataLeft, h.lengthLeft, h.scriptAcc, h.keyAcc, h.checks, h.stack⟩
  · rintro ⟨hchallenge, hscript, hdata, hlength, hacc, hkey, hchecks, hstack⟩
    exact ⟨hchallenge, hscript, hdata, hlength, hacc, hkey, hchecks, hstack⟩

/-! ## The lookup -/

/-- What a view shows to the opcode table. -/
def tuple (v : View) : List Felt :=
  v.opcode :: v.enabled :: OpcodeClass.all.map v.indicator

/-- A view that agrees with a row of the opcode table holds a classified byte, or the padding of the table. -/
theorem tuple_eq_tableRow {v : View} {row : Nat} (h : tuple v = tableRow row) :
    (∃ byte, v.Classified byte) ∨ (v.opcode = 0 ∧ v.enabled = 0) := by
  unfold tuple tableRow at h
  by_cases hrow : row < 256
  · rw [if_pos hrow] at h
    left
    refine ⟨.ofNat row, ?_⟩
    simp only [OpcodeTable.row, OpcodeTable.indicators, OpcodeClass.all, List.map_cons, List.map_nil, List.cons.injEq] at h
    obtain ⟨hopcode, henabled, hempty, hnumber, hbytes, hdata1, hdata2, hdata4, hcheck, -⟩ := h
    have hbool : ∀ (p : Prop) [Decidable p], Felt.ofNat (if p then 1 else 0) = if p then 1 else 0 := by
      intro p _
      split <;> rfl
    rw [hbool] at henabled
    rw [OpcodeTable.oneHot, hbool] at hempty hnumber hbytes hdata1 hdata2 hdata4 hcheck
    refine ⟨?_, henabled, fun k => ?_⟩
    · rw [hopcode, Felt.ofByte_eq, Felt.ofNat_eq]
    · cases k <;> assumption
  · rw [if_neg hrow] at h
    right
    exact ⟨List.head_eq_of_cons_eq h, List.head_eq_of_cons_eq (List.tail_eq_of_cons_eq h)⟩

/-- The lookup of the region. -/
abbrev byteLookup (c : Columns) : Lookup :=
  OpcodeTable.lookup c.isByte.cur c.opcode c.indicators c.table

/-- The lookup has as many inputs as the table has columns. -/
theorem length_zip_table (c : Columns) : (c.opcode :: c.indicators.toList).length = c.table.toList.length :=
  Vector.length_toList.symm

/-- The inputs of the lookup are the tuple of the view on rows of bytes, and zero elsewhere. -/
theorem byteLookup_inputs :
    c.byteLookup.inputs.map (Expr.eval read) = (tuple (c.cur read)).map (read c.isByte 0 * ·) := by
  have hinputs : c.byteLookup.inputs = (c.opcode :: c.indicators.toList).map fun input => c.isByte.cur * input.cur := by
    rw [← List.map_fst_zip (Nat.le_of_eq c.length_zip_table), List.map_map]
    simp only [byteLookup, Lookup.inputs, OpcodeTable.lookup, List.map_map]
    rfl
  rw [hinputs, List.map_map]
  rfl

/-- The lookup reads the columns of the opcode table. -/
theorem byteLookup_table : c.byteLookup.table = c.table.toList := by
  conv_rhs => rw [← List.map_snd_zip (Nat.le_of_eq c.length_zip_table.symm)]
  simp only [byteLookup, Lookup.table, OpcodeTable.lookup, List.map_map]
  rfl

/-! ## The rows of a region -/

/-- The view of a row of a claim. -/
def rowView (c : Columns) (claim : Claim) (row : Nat) : View :=
  c.view fun column => claim.value column row

theorem cur_read {claim : Claim} {row : Nat} (h : row < claim.rows) : c.cur (claim.read row) = c.rowView claim row :=
  congrArg c.view (funext fun column => claim.read_zero column h)

/-- A gate reads the view of the row before. -/
theorem prev_read {claim : Claim} {row : Nat} (h : row + 1 < claim.rows) :
    c.prev (claim.read (row + 1)) = c.rowView claim row :=
  congrArg c.view (funext fun column => claim.read_of_inside column (by omega) (Nat.lt_of_succ_lt h))

/-- A gate reads the view of the row after. -/
theorem next_read {claim : Claim} {row : Nat} (h : row + 1 < claim.rows) :
    c.next (claim.read row) = c.rowView claim (row + 1) :=
  congrArg c.view (funext fun column => claim.read_of_inside column (by omega) h)

/-- A region whose gates and lookup all hold. -/
structure Accepted (c : Columns) (claim : Claim) (start : Nat) : Prop where
  placed : c.Placed claim start
  gates : ∀ g ∈ c.gates, ∀ row, row < claim.rows → g.Holds (claim.read row)
  lookups : ∀ l ∈ c.lookups, ∀ row, row < claim.rows → claim.Finds l row

namespace Placed

variable {claim : Claim} {start : Nat} (h : c.Placed claim start)
include h

theorem row_lt {i : Nat} (hi : i < traceRows) : start + i < claim.rows :=
  Nat.lt_of_lt_of_le (Nat.add_lt_add_left hi start) h.end_le

/-- The mark of the first row, read by a gate. -/
theorem read_first {row : Nat} (hrow : row < claim.rows) :
    claim.read row c.isFirst 0 = if row = start then 1 else 0 := by
  rw [claim.read_zero _ hrow, h.first row hrow]

/-- The mark of byte rows, read by a gate. -/
theorem read_byte {row : Nat} (hrow : row < claim.rows) :
    claim.read row c.isByte 0 = if start < row ∧ row ≤ start + maxScriptSize then 1 else 0 := by
  rw [claim.read_zero _ hrow, h.byte row hrow]

/-- The mark of the last row, read by a gate. -/
theorem read_last {row : Nat} (hrow : row < claim.rows) :
    claim.read row c.isLast 0 = if row = start + (maxScriptSize + 1) then 1 else 0 := by
  rw [claim.read_zero _ hrow, h.last row hrow]

/-- On the row of a byte the lookup asks for a row of the opcode table. -/
theorem finds_iff {row : Nat} (hrow : row < claim.rows) (hbyte : claim.read row c.isByte 0 = 1) :
    claim.Finds c.byteLookup row ↔ ∃ row', row' < claim.rows ∧ tuple (c.rowView claim row) = tableRow row' := by
  have hinputs : c.byteLookup.inputs.map (Expr.eval (claim.read row)) = tuple (c.rowView claim row) := by
    rw [byteLookup_inputs, cur_read hrow, hbyte]
    simp
  rw [Claim.Finds, hinputs, byteLookup_table]
  refine exists_congr fun row' => and_congr_right fun hrow' => ?_
  rw [h.table row' hrow']

/-- Away from the rows of bytes the lookup finds the row of zeros behind the opcode table. -/
theorem finds_of_off {row : Nat} (hbyte : claim.read row c.isByte 0 = 0) : claim.Finds c.byteLookup row := by
  have hzero : 256 < claim.rows := Nat.lt_of_lt_of_le (by decide) (Nat.le_trans (Nat.le_add_left ..) h.end_le)
  refine ⟨256, hzero, ?_⟩
  rw [byteLookup_inputs, byteLookup_table, h.table 256 hzero, hbyte]
  simp [tuple, tableRow, OpcodeClass.all, OpcodeTable.width]

end Placed

namespace Accepted

variable {claim : Claim} {start : Nat} (h : c.Accepted claim start)
include h

/-- In an accepted region every gate holds on every row. -/
theorem gate {g : Gate} (hg : g ∈ c.gates) {row : Nat} (hrow : row < claim.rows) : g.Holds (claim.read row) :=
  h.gates g hg row hrow

theorem row_lt {i : Nat} (hi : i < maxScriptSize) : start + i + 2 < claim.rows :=
  h.placed.row_lt (i := i + 2) (Nat.succ_lt_succ (Nat.succ_lt_succ hi))

/-- A byte row is marked as one. -/
theorem read_byte {i : Nat} (hi : i < maxScriptSize) : claim.read (start + i + 1) c.isByte 0 = 1 := by
  rw [h.placed.read_byte (Nat.lt_of_succ_lt (h.row_lt hi))]
  exact if_pos ⟨by omega, by omega⟩

/-- A byte row is not marked as the last one. -/
theorem read_last {i : Nat} (hi : i < maxScriptSize) : claim.read (start + i + 1) c.isLast 0 = 0 := by
  rw [h.placed.read_last (Nat.lt_of_succ_lt (h.row_lt hi))]
  exact if_neg (by omega)

/-- On a byte row the zero tests are exact. -/
theorem tested {i : Nat} (hi : i < maxScriptSize) : c.Tested (claim.read (start + i + 1)) := by
  have hrow := Nat.lt_of_succ_lt (h.row_lt hi)
  have hbyte : c.isByte.cur.eval (claim.read (start + i + 1)) ≠ 0 := by
    rw [Column.eval_cur, h.read_byte hi]
    exact one_ne_zero
  have hexact : ∀ (z : IsZero) name, z.gate name c.isByte.cur ∈ c.gates → z.Exact (claim.read (start + i + 1)) := fun z name hz =>
    (IsZero.holds_gate_iff hbyte).mp (h.gate hz hrow)
  exact
    { scriptRead := hexact c.scriptRead "num_script_bytes_remaining" (by simp [Columns.gates])
      noData := hexact c.noData "num_data_bytes_remaining" (by simp [Columns.gates])
      noLength := hexact c.noLength "num_data_length_bytes_remaining" (by simp [Columns.gates])
      lastLength := hexact c.lastLength "num_data_length_bytes_remaining - 1" (by simp [Columns.gates]) }

/-- The views of the row of a byte and of its neighbours. -/
theorem views {i : Nat} (hi : i < maxScriptSize) :
    c.prev (claim.read (start + i + 1)) = c.rowView claim (start + i) ∧
      c.cur (claim.read (start + i + 1)) = c.rowView claim (start + i + 1) ∧
      c.next (claim.read (start + i + 1)) = c.rowView claim (start + i + 2) :=
  ⟨prev_read (Nat.lt_of_succ_lt (h.row_lt hi)), cur_read (Nat.lt_of_succ_lt (h.row_lt hi)), next_read (h.row_lt hi)⟩

/-- In an accepted region every byte row follows from the one before. -/
theorem byteStep {i : Nat} (hi : i < maxScriptSize) :
    ByteStep (c.rowView claim (start + i)) (c.rowView claim (start + i + 1)) (c.rowView claim (start + i + 2)) := by
  obtain ⟨hprev, hcur, hnext⟩ := h.views hi
  rw [← hprev, ← hcur, ← hnext, byteStep_iff (h.read_byte hi) (h.read_last hi) (h.tested hi)]
  have hmem : c.stepGates ⊆ c.gates := by
    simp [stepGates, Columns.gates]
  exact fun g hg => h.gate (hmem hg) (Nat.lt_of_succ_lt (h.row_lt hi))

/-- In an accepted region every opcode row holds an enabled opcode. -/
theorem enabled {i : Nat} (hi : i < maxScriptSize) (hopcode : (c.rowView claim (start + i + 1)).AtOpcode) :
    (c.rowView claim (start + i + 1)).enabled = 1 := by
  obtain ⟨-, hcur, -⟩ := h.views hi
  rw [← hcur] at hopcode ⊢
  exact (holds_enabledOpcode (h.read_byte hi) (h.tested hi)).mp
    (h.gate (by simp [Columns.gates]) (Nat.lt_of_succ_lt (h.row_lt hi))) hopcode

/-- In an accepted region every byte row agrees with a row of the opcode table. -/
theorem table {i : Nat} (hi : i < maxScriptSize) :
    ∃ row, row < claim.rows ∧ tuple (c.rowView claim (start + i + 1)) = tableRow row :=
  (h.placed.finds_iff (Nat.lt_of_succ_lt (h.row_lt hi)) (h.read_byte hi)).mp
    (h.lookups _ List.mem_cons_self _ (Nat.lt_of_succ_lt (h.row_lt hi)))

/-- In an accepted region the first row starts the counters and the folds. -/
theorem firstStep : FirstStep (c.rowView claim start) (c.rowView claim (start + 1)) := by
  have hrow : start + 1 < claim.rows := h.placed.row_lt (i := 1) (by decide)
  have hfirst : claim.read start c.isFirst 0 = 1 := by
    rw [h.placed.read_first (Nat.lt_of_succ_lt hrow)]
    exact if_pos rfl
  rw [← cur_read (Nat.lt_of_succ_lt hrow), ← next_read hrow, firstStep_iff hfirst]
  exact h.gate (by simp [Columns.gates]) (Nat.lt_of_succ_lt hrow)

/-- The last row is marked as the last and not as a byte row. -/
theorem last_marks : claim.read (start + (maxScriptSize + 1)) c.isByte 0 = 0 ∧
    claim.read (start + (maxScriptSize + 1)) c.isLast 0 = 1 := by
  have hrow : start + (maxScriptSize + 1) < claim.rows := h.placed.row_lt (by decide)
  rw [h.placed.read_byte hrow, h.placed.read_last hrow]
  exact ⟨if_neg (by omega), if_pos rfl⟩

/-- In an accepted region the last row closes the script. -/
theorem lastStep : LastStep (c.rowView claim (start + maxScriptSize)) (c.rowView claim (start + (maxScriptSize + 1))) := by
  have hrow : start + (maxScriptSize + 1) < claim.rows := h.placed.row_lt (by decide)
  obtain ⟨hbyte, hlast⟩ := h.last_marks
  have hprev : c.prev (claim.read (start + (maxScriptSize + 1))) = c.rowView claim (start + maxScriptSize) :=
    prev_read hrow
  rw [← hprev, ← cur_read hrow]
  exact (lastStep_iff hbyte hlast).mpr ⟨h.gate (by simp [Columns.gates]) hrow, h.gate (by simp [Columns.gates]) hrow⟩

/-- The item on top in the last row is true. -/
theorem topTrue : (c.rowView claim (start + (maxScriptSize + 1))).TopTrue := by
  have hrow : start + (maxScriptSize + 1) < claim.rows := h.placed.row_lt (by decide)
  obtain ⟨hbyte, hlast⟩ := h.last_marks
  have hterminal : c.terminal.eval (claim.read (start + (maxScriptSize + 1))) ≠ 0 := by
    rw [eval_terminal_last hbyte hlast]
    exact one_ne_zero
  have hexact : c.topFalse.Exact (claim.read (start + (maxScriptSize + 1))) :=
    (IsZero.holds_gate_iff hterminal).mp (h.gate (g := c.topFalse.gate "stack top truthiness" c.terminal)
      (by simp [Columns.gates]) hrow)
  rw [← cur_read hrow]
  exact (holds_topTrue hexact hterminal).mp (h.gate (by simp [Columns.gates]) hrow)

end Accepted

end Columns

/-- A region under other advice that a check accepts. -/
theorem Overwritten.accepted {claim : Claim} {start : Nat} {L c r : Felt} (h : Overwritten claim start L c r)
    (hok : claim.failures = .ok []) : system.1.Accepted claim start := by
  obtain ⟨-, hgates, hlookups, -⟩ := claim.failures_eq_nil.mp hok
  rw [h.system_eq] at hgates hlookups
  exact ⟨h.placed, hgates, hlookups⟩

/-- The public values are those of the first row. -/
theorem Overwritten.publicValues {claim : Claim} {start : Nat} {L c r : Felt} (h : Overwritten claim start L c r)
    (hok : claim.failures = .ok []) :
    (system.1.rowView claim start).scriptLeft = L ∧ (system.1.rowView claim start).scriptAcc = c ∧
      (system.1.rowView claim start).challenge = r := by
  obtain ⟨-, -, -, hcopies⟩ := claim.failures_eq_nil.mp hok
  rw [h.copies_eq, Columns.publicCopies] at hcopies
  simp only [List.forall_mem_cons, Claim.Agrees, h.publicValue] at hcopies
  exact ⟨hcopies.1.2.2, hcopies.2.1.2.2, hcopies.2.2.1.2.2⟩

end ScriptCircuit.Execution
