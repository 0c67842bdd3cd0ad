import Mathlib
import ScriptCircuit.Proofs.Execution.Rows

/-!
# Which views satisfy the gates

The other direction of what the gates say: when the zero tests of a region are exact and its views satisfy the gates of
their rows, the gates hold on every row of the matrix, those of the enabled opcodes and of the final item where the views say
so.
-/

namespace ScriptCircuit.Execution

namespace Columns

variable {c : Columns} {read : Column → Int → Felt}

/-! ## Gates away from their rows -/

/-- Away from the rows of bytes their gates hold, that of the challenge apart. -/
theorem holds_of_off (hbyte : read c.isByte 0 = 0) : ∀ g ∈ c.stepGates.tail, g.Holds read := by
  simp only [stepGates, List.tail_cons, List.forall_mem_cons, List.not_mem_nil, false_implies, implies_true, and_true]
  refine ⟨?_, ?_, ?_, ?_, ?_, ?_, ?_, ?_, ?_, ?_, ?_, ?_, ?_⟩
  all_goals
    simp only [scriptByte, frozen, pushNumber, pushEmpty, nop, pushBytes, pushData, dataByte, lengthByte, checkSignature,
      accumulators, opcodeNext, opcodeRow, Gate.holds_append, Gate.holds_cons, Gate.holds_nil, holds_stackUnchanged,
      holds_stackPushed, holds_stackPopped, Expr.eval_mul, Column.eval_cur, hbyte, zero_mul, true_or, and_true]

/-- Away from byte rows the gate of the enabled opcodes holds. -/
theorem holds_enabledOpcode_of_off (hbyte : read c.isByte 0 = 0) : c.enabledOpcode.Holds read := by
  simp only [enabledOpcode, opcodeRow, Gate.holds_cons, Gate.holds_nil, Expr.eval_mul, Column.eval_cur, hbyte, zero_mul,
    and_true]

/-- Away from the region nothing is asked of the challenge. -/
theorem holds_sameChallenge_of_off (hbyte : read c.isByte 0 = 0) (hlast : read c.isLast 0 = 0) :
    c.sameChallenge.Holds read := by
  simp only [sameChallenge, Gate.holds_cons, Gate.holds_nil, Expr.eval_mul, Column.eval_cur, hbyte, hlast, zero_mul, and_true]

theorem holds_firstRow_of_off (hfirst : read c.isFirst 0 = 0) : c.firstRow.Holds read := by
  simp only [firstRow, Gate.holds_cons, Gate.holds_nil, Expr.eval_mul, Column.eval_cur, hfirst, zero_mul, and_true]

/-- Away from the last row its gate holds. -/
theorem holds_lastRow_of_off (hlast : read c.isLast 0 = 0) : c.lastRow.Holds read := by
  simp only [lastRow, Gate.holds_append, Gate.holds_cons, Gate.holds_nil, holds_stackUnchanged, Expr.eval_mul,
    Column.eval_cur, hlast, zero_mul, true_or, and_true]

/-- Away from the region the truth gate is switched off. -/
theorem eval_terminal_of_off (hbyte : read c.isByte 0 = 0) (hlast : read c.isLast 0 = 0) : c.terminal.eval read = 0 := by
  simp only [terminal, Expr.eval_add, Expr.eval_mul, Column.eval_cur, hbyte, hlast, zero_mul, add_zero]

theorem holds_topTrue_of_off (hterminal : c.terminal.eval read = 0) : c.topTrue.Holds read := by
  simp only [topTrue, Gate.holds_cons, Gate.holds_nil, Expr.eval_mul, hterminal, zero_mul, and_true]

/-- A classified view is the row of its byte in the opcode table. -/
theorem tuple_of_classified {v : View} {byte : UInt8} (hv : v.Classified byte) : tuple v = tableRow byte.toNat := by
  have hbool : ∀ (p : Prop) [Decidable p], (if p then 1 else 0 : Felt) = .ofNat (if p then 1 else 0) := by
    intro p _
    split <;> rfl
  rw [tableRow, if_pos byte.toNat_lt, UInt8.ofNat_toNat, tuple, hv.opcode, hv.enabled, Felt.ofByte_eq, hbool]
  refine congrArg (List.cons _) (congrArg (List.cons _) ?_)
  rw [List.map_map]
  refine List.map_congr_left fun k _ => ?_
  rw [hv.indicator, hbool]
  rfl

/-- A classified byte agrees with its row of the opcode table. -/
theorem Placed.table_of_classified {claim : Claim} {start : Nat} (h : c.Placed claim start) {v : View} {byte : UInt8}
    (hv : v.Classified byte) : ∃ row, row < claim.rows ∧ tuple v = tableRow row := by
  have hsmall : byte.toNat < 256 := byte.toNat_lt
  have hend : start + 522 ≤ claim.rows := h.end_le
  exact ⟨byte.toNat, by omega, tuple_of_classified hv⟩

/-- All gates but those of the enabled opcodes and of the final item. -/
def quietGates (c : Columns) : List Gate :=
  [c.scriptRead.gate "num_script_bytes_remaining" c.isByte.cur,
    c.noData.gate "num_data_bytes_remaining" c.isByte.cur,
    c.noLength.gate "num_data_length_bytes_remaining" c.isByte.cur,
    c.lastLength.gate "num_data_length_bytes_remaining - 1" c.isByte.cur,
    c.topFalse.gate "stack top truthiness" c.terminal, c.firstRow, c.lastRow] ++ c.stepGates

/-- A row of the matrix is the first row of the region, the row of a byte or of padding, the last row or outside. -/
inductive RowKind (c : Columns) (claim : Claim) (start row : Nat) : Prop where
  | first (hrow : row = start) (hfirst : claim.read row c.isFirst 0 = 1) (hbyte : claim.read row c.isByte 0 = 0)
      (hlast : claim.read row c.isLast 0 = 0)
  | byte (i : Nat) (hi : i < maxScriptSize) (hrow : row = start + (i + 1)) (hfirst : claim.read row c.isFirst 0 = 0)
      (hbyte : claim.read row c.isByte 0 = 1) (hlast : claim.read row c.isLast 0 = 0)
  | last (hrow : row = start + (maxScriptSize + 1)) (hfirst : claim.read row c.isFirst 0 = 0)
      (hbyte : claim.read row c.isByte 0 = 0) (hlast : claim.read row c.isLast 0 = 1)
  | outside (hrow : row < start ∨ start + (maxScriptSize + 1) < row) (hfirst : claim.read row c.isFirst 0 = 0)
      (hbyte : claim.read row c.isByte 0 = 0) (hlast : claim.read row c.isLast 0 = 0)

/-- Every row is the first one, a byte row, the last one or outside of the region. -/
theorem Placed.rowKind {claim : Claim} {start : Nat} (h : c.Placed claim start) {row : Nat} (hrow : row < claim.rows) :
    c.RowKind claim start row := by
  have hfirst := h.read_first hrow
  have hbyte := h.read_byte hrow
  have hlast := h.read_last hrow
  rcases Nat.lt_trichotomy row start with hlt | rfl | hgt
  · rw [if_neg (by omega)] at hfirst hbyte hlast
    exact .outside (.inl hlt) hfirst hbyte hlast
  · rw [if_pos rfl] at hfirst
    rw [if_neg (by omega)] at hbyte hlast
    exact .first rfl hfirst hbyte hlast
  · obtain ⟨i, rfl⟩ := Nat.exists_eq_add_of_lt hgt
    rcases Nat.lt_trichotomy i maxScriptSize with hi | rfl | hi
    · rw [if_neg (by omega)] at hfirst hlast
      rw [if_pos ⟨by omega, by omega⟩] at hbyte
      exact .byte i hi rfl hfirst hbyte hlast
    · rw [if_neg (by omega)] at hfirst hbyte
      rw [if_pos (Nat.add_assoc ..)] at hlast
      exact .last (Nat.add_assoc ..) hfirst hbyte hlast
    · rw [if_neg (by omega)] at hfirst hbyte hlast
      exact .outside (.inr (by omega)) hfirst hbyte hlast

/-- The marks and the table of a region are in place, and the zero tests are exact where they are switched on. -/
structure Exact (c : Columns) (claim : Claim) (start : Nat) : Prop where
  placed : c.Placed claim start
  tested : ∀ i, i < maxScriptSize → c.Tested (claim.read (start + (i + 1)))
  topTested : ∀ i, i ≤ maxScriptSize → c.terminal.eval (claim.read (start + (i + 1))) ≠ 0 →
    c.topFalse.Exact (claim.read (start + (i + 1)))

/-- In an accepted region the zero tests are exact. -/
theorem Accepted.exact {claim : Claim} {start : Nat} (h : c.Accepted claim start) : c.Exact claim start where
  placed := h.placed
  tested i hi := h.tested hi
  topTested i hi hterminal := (IsZero.holds_gate_iff hterminal).mp (h.gate
    (g := c.topFalse.gate "stack top truthiness" c.terminal) (by simp [Columns.gates])
    (h.placed.row_lt (Nat.succ_lt_succ (Nat.lt_succ_of_le hi))))

namespace Exact

variable {claim : Claim} {start : Nat} (h : c.Exact claim start)
include h

/-- A row of the region lies in the matrix. -/
theorem row_lt {i : Nat} (hi : i < traceRows) : start + i < claim.rows :=
  h.placed.row_lt hi

/-- A byte row is marked as one. -/
theorem read_byte {i : Nat} (hi : i < maxScriptSize) : claim.read (start + (i + 1)) c.isByte 0 = 1 := by
  rw [h.placed.read_byte (h.row_lt (Nat.succ_lt_succ (Nat.lt_succ_of_lt hi)))]
  exact if_pos ⟨by omega, by omega⟩

/-- The zero tests are exact where they are switched on. -/
theorem tested_or_off {row : Nat} (hrow : row < claim.rows) :
    (claim.read row c.isByte 0 = 0 ∨ c.Tested (claim.read row)) ∧
      (c.terminal.eval (claim.read row) = 0 ∨ c.topFalse.Exact (claim.read row)) := by
  cases h.placed.rowKind hrow with
  | first _ _ hbyte hlast | outside _ _ hbyte hlast => exact ⟨.inl hbyte, .inl (eval_terminal_of_off hbyte hlast)⟩
  | byte i hi hrow =>
    subst hrow
    exact ⟨.inr (h.tested i hi), or_iff_not_imp_left.mpr (h.topTested i (Nat.le_of_lt hi))⟩
  | last hrow _ hbyte =>
    subst hrow
    exact ⟨.inl hbyte, or_iff_not_imp_left.mpr (h.topTested maxScriptSize (Nat.le_refl _))⟩

/-- The gate of the enabled opcodes fails on the rows of opcodes that are not enabled. -/
theorem enabledOpcode_fails_iff {row : Nat} (hrow : row < claim.rows) :
    ¬c.enabledOpcode.Holds (claim.read row) ↔ ∃ i, i < maxScriptSize ∧ row = start + (i + 1) ∧
      (c.rowView claim row).AtOpcode ∧ (c.rowView claim row).enabled ≠ 1 := by
  constructor
  · intro hfails
    cases h.placed.rowKind hrow with
    | byte i hi hbyteRow _ hbyte =>
      subst hbyteRow
      rw [holds_enabledOpcode hbyte (h.tested i hi), cur_read hrow, Classical.not_imp] at hfails
      exact ⟨i, hi, rfl, hfails⟩
    | first _ _ hbyte | last _ _ hbyte | outside _ _ hbyte => exact absurd (holds_enabledOpcode_of_off hbyte) hfails
  · rintro ⟨i, hi, rfl, hfails⟩
    rw [holds_enabledOpcode (h.read_byte hi) (h.tested i hi), cur_read hrow, Classical.not_imp]
    exact hfails

/-- The lookup finds its inputs on every row when it does on the rows of bytes. -/
theorem finds (htable : ∀ i, i < maxScriptSize →
      ∃ row, row < claim.rows ∧ tuple (c.rowView claim (start + (i + 1))) = tableRow row) {row : Nat}
    (hrow : row < claim.rows) : claim.Finds c.byteLookup row := by
  cases h.placed.rowKind hrow with
  | byte i hi hbyteRow _ hbyte =>
    subst hbyteRow
    exact (h.placed.finds_iff hrow hbyte).mpr (htable i hi)
  | first _ _ hbyte | last _ _ hbyte | outside _ _ hbyte => exact h.placed.finds_of_off hbyte

variable (hrows : Rows fun i => c.rowView claim (start + i))
include hrows

/-- The gate of the first row holds everywhere. -/
theorem firstRow_holds {row : Nat} (hrow : row < claim.rows) : c.firstRow.Holds (claim.read row) := by
  cases h.placed.rowKind hrow with
  | first hstart hfirst =>
    subst hstart
    rw [← firstStep_iff hfirst, cur_read hrow, next_read (h.row_lt (i := 1) (by decide))]
    exact hrows.first
  | byte _ _ _ hfirst | last _ hfirst | outside _ hfirst => exact holds_firstRow_of_off hfirst

/-- The gate of the last row holds everywhere, and that of the challenge away from byte rows. -/
theorem last_holds {row : Nat} (hrow : row < claim.rows) : c.lastRow.Holds (claim.read row) ∧
    (claim.read row c.isByte 0 = 0 → c.sameChallenge.Holds (claim.read row)) := by
  cases h.placed.rowKind hrow with
  | last hlastRow _ hbyte hlast =>
    subst hlastRow
    have hprev : c.prev (claim.read (start + (maxScriptSize + 1))) = c.rowView claim (start + maxScriptSize) :=
      prev_read hrow
    have hstep := hrows.last
    rw [← cur_read hrow, ← hprev, lastStep_iff hbyte hlast] at hstep
    exact ⟨hstep.2, fun _ => hstep.1⟩
  | first _ _ _ hlast | byte _ _ _ _ _ hlast | outside _ _ _ hlast =>
    exact ⟨holds_lastRow_of_off hlast, fun hbyte => holds_sameChallenge_of_off hbyte hlast⟩

/-- The gates of the steps hold everywhere. -/
theorem stepGates_hold {row : Nat} (hrow : row < claim.rows) : ∀ g ∈ c.stepGates, g.Holds (claim.read row) := by
  have hoff : claim.read row c.isByte 0 = 0 → ∀ g ∈ c.stepGates, g.Holds (claim.read row) := by
    intro hbyte
    exact List.forall_mem_cons.mpr ⟨(h.last_holds hrows hrow).2 hbyte, holds_of_off hbyte⟩
  cases h.placed.rowKind hrow with
  | byte i hi hbyteRow hfirst hbyte hlast =>
    subst hbyteRow
    have hnext : start + (i + 1) + 1 < claim.rows := h.row_lt (Nat.succ_lt_succ (Nat.succ_lt_succ hi))
    have hprev : c.prev (claim.read (start + (i + 1))) = c.rowView claim (start + i) := prev_read hrow
    rw [← byteStep_iff hbyte hlast (h.tested i hi), hprev, cur_read hrow, next_read hnext]
    exact hrows.byte i hi
  | first _ _ hbyte | last _ _ hbyte | outside _ _ hbyte => exact hoff hbyte

/-- All gates but two hold on every row. -/
theorem quiet {row : Nat} (hrow : row < claim.rows) : ∀ g ∈ c.quietGates, g.Holds (claim.read row) := by
  obtain ⟨htested, htop⟩ := h.tested_or_off hrow
  have hgate : ∀ {z : IsZero} {name : String} {enable : Expr}, enable.eval (claim.read row) = 0 ∨ z.Exact (claim.read row) →
      (z.gate name enable).Holds (claim.read row) := by
    intro z name enable hz
    by_cases hoff : enable.eval (claim.read row) = 0
    · exact IsZero.holds_gate_of_off hoff
    · exact (IsZero.holds_gate_iff hoff).mpr (hz.resolve_left hoff)
  refine List.forall_mem_append.mpr ⟨?_, h.stepGates_hold hrows hrow⟩
  simp only [List.forall_mem_cons, List.not_mem_nil, false_implies, implies_true, and_true]
  exact ⟨hgate (htested.imp_right Tested.scriptRead), hgate (htested.imp_right Tested.noData),
    hgate (htested.imp_right Tested.noLength), hgate (htested.imp_right Tested.lastLength), hgate htop,
    h.firstRow_holds hrows hrow, (h.last_holds hrows hrow).1⟩

/-- The gate of the final item is switched on behind the script. -/
theorem terminal_ne_zero {i : Nat} (hi : i ≤ maxScriptSize) :
    c.terminal.eval (claim.read (start + (i + 1))) ≠ 0 ↔ Rows.length (fun i => c.rowView claim (start + i)) ≤ i := by
  have hrow := h.row_lt (Nat.succ_lt_succ (Nat.lt_succ_of_le hi))
  cases h.placed.rowKind hrow with
  | byte j hj hbyteRow _ hbyte hlast =>
    obtain rfl : i = j := by omega
    rw [eval_terminal_byte hbyte (h.tested i hj) hlast, cur_read hrow, ← Nat.not_lt, ← hrows.scriptLeft_ne_zero hj]
    by_cases hzero : (c.rowView claim (start + (i + 1))).scriptLeft = 0
    · rw [if_pos hzero]
      exact iff_of_true one_ne_zero (not_not_intro hzero)
    · rw [if_neg hzero]
      exact iff_of_false (not_not_intro rfl) (not_not_intro hzero)
  | last hlastRow _ hbyte hlast =>
    obtain rfl : i = maxScriptSize := by omega
    rw [eval_terminal_last hbyte hlast]
    exact iff_of_true one_ne_zero hrows.length_le
  | first hfirstRow | outside houtside => omega

/-- The gate of the final item fails on the rows behind the script with a false item on top. -/
theorem topTrue_fails_iff {row : Nat} (hrow : row < claim.rows) :
    ¬c.topTrue.Holds (claim.read row) ↔ ∃ i, i ≤ maxScriptSize ∧ row = start + (i + 1) ∧
      Rows.length (fun i => c.rowView claim (start + i)) ≤ i ∧ ¬(c.rowView claim row).TopTrue := by
  have hinside : ∀ {i}, i ≤ maxScriptSize → (¬c.topTrue.Holds (claim.read (start + (i + 1))) ↔
      Rows.length (fun i => c.rowView claim (start + i)) ≤ i ∧ ¬(c.rowView claim (start + (i + 1))).TopTrue) := by
    intro i hi
    have hoffset : i + 1 < traceRows := Nat.succ_lt_succ (Nat.lt_succ_of_le hi)
    rw [← h.terminal_ne_zero hrows hi]
    by_cases hterminal : c.terminal.eval (claim.read (start + (i + 1))) = 0
    · exact iff_of_false (not_not_intro (holds_topTrue_of_off hterminal)) fun hfails => hfails.1 hterminal
    · rw [holds_topTrue (h.topTested i hi hterminal) hterminal, cur_read (h.row_lt hoffset), and_iff_right hterminal]
  constructor
  · intro hfails
    cases h.placed.rowKind hrow with
    | first _ _ hbyte hlast | outside _ _ hbyte hlast =>
      exact absurd (holds_topTrue_of_off (eval_terminal_of_off hbyte hlast)) hfails
    | byte i hi hbyteRow =>
      subst hbyteRow
      exact ⟨i, Nat.le_of_lt hi, rfl, (hinside (Nat.le_of_lt hi)).mp hfails⟩
    | last hlastRow =>
      subst hlastRow
      exact ⟨maxScriptSize, Nat.le_refl _, rfl, (hinside (Nat.le_refl _)).mp hfails⟩
  · rintro ⟨i, hi, rfl, hfails⟩
    exact (hinside hi).mpr hfails

/-- A region is accepted when its views satisfy the gates, its bytes stand in the table, its opcodes are enabled and the
item on top behind the script is true. -/
theorem accepted (htable : ∀ i, i < maxScriptSize →
      ∃ row, row < claim.rows ∧ tuple (c.rowView claim (start + (i + 1))) = tableRow row)
    (henabled : ∀ i, i < maxScriptSize → (c.rowView claim (start + (i + 1))).AtOpcode →
      (c.rowView claim (start + (i + 1))).enabled = 1)
    (htop : ∀ i, i ≤ maxScriptSize → Rows.length (fun i => c.rowView claim (start + i)) ≤ i →
      (c.rowView claim (start + (i + 1))).TopTrue) : c.Accepted claim start where
  placed := h.placed
  gates g hg row hrow := by
    have hquiet := h.quiet hrows hrow
    have henabledGate : c.enabledOpcode.Holds (claim.read row) := by
      by_contra hfails
      obtain ⟨i, hi, rfl, hopcode, hoff⟩ := (h.enabledOpcode_fails_iff hrow).mp hfails
      exact hoff (henabled i hi hopcode)
    have htopGate : c.topTrue.Holds (claim.read row) := by
      by_contra hfails
      obtain ⟨i, hi, rfl, hbehind, hfalse⟩ := (h.topTrue_fails_iff hrows hrow).mp hfails
      exact hfalse (htop i hi hbehind)
    simp only [quietGates, stepGates, List.forall_mem_append, List.forall_mem_cons] at hquiet
    revert g
    simp only [Columns.gates, List.forall_mem_cons, List.not_mem_nil, false_implies, implies_true, hquiet, henabledGate,
      htopGate, and_true]
  lookups l hl row hrow := by
    obtain rfl := List.mem_singleton.mp hl
    exact h.finds htable hrow

end Exact

/-- In an accepted region the item on top behind the script is true. -/
theorem Accepted.topTrue_behind {claim : Claim} {start : Nat} (h : c.Accepted claim start) {i : Nat}
    (hi : i ≤ maxScriptSize) (hbehind : Rows.length (fun i => c.rowView claim (start + i)) ≤ i) :
    (c.rowView claim (start + (i + 1))).TopTrue := by
  have hrow := h.placed.row_lt (i := i + 1) (Nat.succ_lt_succ (Nat.lt_succ_of_le hi))
  by_contra hfalse
  exact (h.exact.topTrue_fails_iff h.rows hrow).mpr ⟨i, hi, rfl, hbehind, hfalse⟩ (h.gate (by simp [Columns.gates]) hrow)

end Columns

end ScriptCircuit.Execution
