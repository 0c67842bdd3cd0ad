import Mathlib
import ScriptCircuit.Plonk.Gadget.ByteRange
import ScriptCircuit.Proofs.Field.Algebra
import ScriptCircuit.Proofs.Plonk.Gadget
import ScriptCircuit.Proofs.Plonk.Marks
import ScriptCircuit.Proofs.Plonk.Satisfied
import ScriptCircuit.Proofs.Plonk.Unique

/-!
# The decomposition into bytes

What a decomposition writes, and what its gates say about whatever stands in its cells: where the recurrence is switched on
for some rows and the end behind them, the running sum starts with the number whose digits are the byte cells.
-/

namespace ScriptCircuit.ByteRange

/-! ## What is written -/

/-- The columns of a decomposition that are written are advice columns. -/
structure Proper (b : ByteRange) : Prop where
  sum_kind : b.runningSum.kind = .advice
  byte_kind : b.byte.kind = .advice

/-- The cells of the recurrence over some rows and of its end. -/
def byteCells (b : ByteRange) (offset value : Nat) : Nat → List (Column × Nat × Felt)
  | 0 => [(b.stop, offset, 1)]
  | count + 1 =>
    (b.step, offset, 1) :: (b.byte, offset, .ofNat (value % 256)) :: (b.runningSum, offset + 1, .ofNat (value / 256)) ::
      byteCells b (offset + 1) (value / 256) count

/-- The byte cells of a decomposition, in a region that starts at a row. -/
def bytesFrom (b : ByteRange) (start offset value : Nat) : Nat → List AssignedCell
  | 0 => []
  | count + 1 =>
    ⟨⟨b.byte, rowAt start offset⟩, .ofNat (value % 256)⟩ :: bytesFrom b start (offset + 1) (value / 256) count

variable {b : ByteRange} {sys : System}

/-- Assigning bytes writes the recurrence with its byte cells and hands these out. -/
theorem Proper.does_assignBytes (hb : b.Proper) (offset value count : Nat) :
    (b.assignBytes offset value count).Does sys (b.byteCells offset value count) [] fun start =>
      b.bytesFrom start offset value count := by
  induction count generalizing offset value with
  | zero => exact (Fill.does_enable b.stop offset).andThen (Fill.does_pure [])
  | succ count ih =>
    have hrest : ∀ byte, (discard (Fill.assignAdvice b.runningSum (offset + 1) (.ofNat (value / 256))) >>= fun _ =>
        b.assignBytes (offset + 1) (value / 256) count >>= fun rest => pure (byte :: rest)).Does sys
        ((b.runningSum, offset + 1, .ofNat (value / 256)) :: b.byteCells (offset + 1) (value / 256) count) []
        fun start => byte :: b.bytesFrom start (offset + 1) (value / 256) count := fun byte =>
      (Fill.does_assignAdvice (offset + 1) (.ofNat (value / 256)) hb.sum_kind).discard.andThen
        ((ih (offset + 1) (value / 256)).map (byte :: ·))
    have hbody := (Fill.does_assignAdvice offset (.ofNat (value % 256)) hb.byte_kind).bind hrest
    exact (Fill.does_enable b.step offset).andThen hbody

/-- The cells of the decomposition of a cell into bits. -/
def sumCells (b : ByteRange) (offset : Nat) (source : AssignedCell) (bits : Nat) : List (Column × Nat × Felt) :=
  (b.runningSum, offset, source.value) :: b.byteCells offset source.value.toNat (bits / 8)

/-- A value that fits is decomposed. -/
theorem Proper.does_decompose (hb : b.Proper) (offset : Nat) (source : AssignedCell) {bits : Nat}
    (hbits : ¬(bits = 0 ∨ bits % 8 ≠ 0 ∨ 64 ≤ bits)) (hfits : source.value.toNat >>> bits = 0) :
    (b.decompose sys offset source 8 bits).Does sys (b.sumCells offset source bits)
      [(source.cell, b.runningSum, offset)] fun start => b.bytesFrom start offset source.value.toNat (bits / 8) := by
  have hbody : b.decompose sys offset source 8 bits = discard (Fill.copyAdvice sys source b.runningSum offset) >>= fun _ =>
      b.assignBytes offset source.value.toNat (bits / 8) := by
    unfold decompose
    rw [if_neg (not_not_intro rfl), if_neg hbits, if_neg (not_not_intro hfits)]
  rw [hbody]
  exact (Fill.does_copyAdvice source offset hb.sum_kind).discard.andThen
    (hb.does_assignBytes offset source.value.toNat (bits / 8))

/-- A cell of a decomposition is one of its running sum or bytes, or a mark that is switched on. -/
def Writes (b : ByteRange) (x : Column × Nat × Felt) : Prop :=
  (x.1 = b.runningSum ∨ x.1 = b.byte) ∨ (x.1 = b.step ∨ x.1 = b.stop) ∧ x.2.2 = 1

/-- The recurrence writes its own columns, from its offset to the row behind the last byte. -/
theorem byteCells_bounds {offset value count : Nat} {x : Column × Nat × Felt} (h : x ∈ b.byteCells offset value count) :
    b.Writes x ∧ offset ≤ x.2.1 ∧ x.2.1 ≤ offset + count := by
  induction count generalizing offset value with
  | zero =>
    obtain rfl := List.mem_singleton.mp h
    simp [Writes]
  | succ count ih =>
    simp only [byteCells, List.mem_cons] at h
    rcases h with rfl | rfl | rfl | h
    · simp [Writes]
    · simp [Writes]
    · simp [Writes]
    · obtain ⟨hcolumn, hlow, hhigh⟩ := ih h
      exact ⟨hcolumn, by omega, by omega⟩

/-- A decomposition writes its own columns, from its offset to the row behind the last byte. -/
theorem sumCells_bounds {offset bits : Nat} {source : AssignedCell} {x : Column × Nat × Felt}
    (h : x ∈ b.sumCells offset source bits) : b.Writes x ∧ offset ≤ x.2.1 ∧ x.2.1 ≤ offset + bits / 8 := by
  rcases List.mem_cons.mp h with rfl | h
  · exact ⟨.inl (.inl rfl), Nat.le_refl _, Nat.le_add_right ..⟩
  · exact byteCells_bounds h

/-- The recurrence is switched on for the rows of the bytes. -/
theorem marks_step (hne : b.step ∉ [b.runningSum, b.byte, b.stop]) (offset value count : Nat) :
    Marks (b.byteCells offset value count) b.step fun row => offset ≤ row ∧ row < offset + count := by
  simp only [List.mem_cons, List.not_mem_nil, or_false, not_or] at hne
  induction count generalizing offset value with
  | zero =>
    refine (Marks.of_forall_ne fun x hx => ?_).congr fun row => iff_of_false not_false (by omega)
    obtain rfl := List.mem_singleton.mp hx
    exact Ne.symm hne.2.2
  | succ count ih =>
    have hrest := ((ih (offset + 1) (value / 256)).cons_of_ne ((b.runningSum, offset + 1, .ofNat (value / 256)))
      (Ne.symm hne.1)).cons_of_ne ((b.byte, offset, .ofNat (value % 256))) (Ne.symm hne.2.1)
    exact (hrest.cons offset).congr fun row => by omega

/-- The end is switched on behind the rows of the bytes. -/
theorem marks_stop (hne : b.stop ∉ [b.runningSum, b.byte, b.step]) (offset value count : Nat) :
    Marks (b.byteCells offset value count) b.stop (· = offset + count) := by
  simp only [List.mem_cons, List.not_mem_nil, or_false, not_or] at hne
  induction count generalizing offset value with
  | zero => exact Marks.single b.stop offset
  | succ count ih =>
    have hrest := ((ih (offset + 1) (value / 256)).cons_of_ne ((b.runningSum, offset + 1, .ofNat (value / 256)))
      (Ne.symm hne.1)).cons_of_ne ((b.byte, offset, .ofNat (value % 256))) (Ne.symm hne.2.1)
    exact (hrest.cons_of_ne ((b.step, offset, 1)) (Ne.symm hne.2.2)).congr fun row => by omega

/-- The same for a decomposition with the copy of its source. -/
theorem marks_sumStep (hne : b.step ∉ [b.runningSum, b.byte, b.stop]) (offset : Nat) (source : AssignedCell) (bits : Nat) :
    Marks (b.sumCells offset source bits) b.step fun row => offset ≤ row ∧ row < offset + bits / 8 :=
  (marks_step hne offset source.value.toNat (bits / 8)).cons_of_ne _ (List.ne_of_not_mem_cons hne).symm

/-- The end is switched on behind the bytes of a decomposition. -/
theorem marks_sumStop (hne : b.stop ∉ [b.runningSum, b.byte, b.step]) (offset : Nat) (source : AssignedCell) (bits : Nat) :
    Marks (b.sumCells offset source bits) b.stop (· = offset + bits / 8) :=
  (marks_stop hne offset source.value.toNat (bits / 8)).cons_of_ne _ (List.ne_of_not_mem_cons hne).symm

/-- There are as many byte cells as were asked for. -/
theorem length_bytesFrom (b : ByteRange) (start offset value count : Nat) :
    (b.bytesFrom start offset value count).length = count := by
  induction count generalizing offset value with
  | zero => rfl
  | succ count ih => rw [bytesFrom, List.length_cons, ih]

/-- The cell of a byte. -/
theorem cell_bytesFrom (b : ByteRange) (start offset value : Nat) {count i : Nat} (hi : i < count) :
    ∃ x, (b.bytesFrom start offset value count)[i]? = some ⟨⟨b.byte, rowAt start (offset + i)⟩, x⟩ := by
  induction count generalizing offset value i with
  | zero => cases hi
  | succ count ih =>
    cases i with
    | zero => exact ⟨_, rfl⟩
    | succ i =>
      obtain ⟨x, hx⟩ := ih (offset + 1) (value / 256) (Nat.lt_of_succ_lt_succ hi)
      have hrow : offset + (i + 1) = offset + 1 + i := by omega
      refine ⟨x, ?_⟩
      rw [bytesFrom, List.getElem?_cons_succ, hx, hrow]

/-- What is left of the number behind some of its bytes, and the next byte. -/
theorem mem_byteCells (b : ByteRange) (offset value : Nat) {j count : Nat} (hj : j < count) :
    (b.byte, offset + j, .ofNat (value / 256 ^ j % 256)) ∈ b.byteCells offset value count ∧
      (b.runningSum, offset + (j + 1), .ofNat (value / 256 ^ (j + 1))) ∈ b.byteCells offset value count := by
  induction count generalizing offset value j with
  | zero => cases hj
  | succ count ih =>
    cases j with
    | zero => simp [byteCells]
    | succ j =>
      obtain ⟨hbyte, hsum⟩ := ih (offset + 1) (value / 256) (Nat.lt_of_succ_lt_succ hj)
      rw [Nat.div_div_eq_div_mul, ← Nat.pow_succ', Nat.add_right_comm, Nat.add_assoc] at hbyte hsum
      simp only [byteCells, List.mem_cons]
      exact ⟨.inr (.inr (.inr hbyte)), .inr (.inr (.inr hsum))⟩

/-- A byte cell is written by the decomposition. -/
theorem bytesFrom_written {start offset value count : Nat} {byte : AssignedCell}
    (h : byte ∈ b.bytesFrom start offset value count) :
    (byte.cell.column, byte.cell.row, byte.value) ∈ placed start (b.byteCells offset value count) := by
  induction count generalizing offset value with
  | zero => cases h
  | succ count ih =>
    rcases List.mem_cons.mp h with rfl | h
    · exact mem_placed.mpr ⟨offset, by simp [byteCells], rfl⟩
    · obtain ⟨offset', hmem, hrow⟩ := mem_placed.mp (ih h)
      refine mem_placed.mpr ⟨offset', ?_, hrow⟩
      simp only [byteCells, List.mem_cons]
      exact .inr (.inr (.inr hmem))

/-- The byte cells hold the digits of the number, the least significant one first. -/
theorem map_value_bytesFrom (b : ByteRange) (start offset value count : Nat) :
    (b.bytesFrom start offset value count).map (·.value) = (List.range count).map fun j => .ofNat (value / 256 ^ j % 256) := by
  induction count generalizing offset value with
  | zero => rfl
  | succ count ih =>
    have hrest : ∀ j, value / 256 / 256 ^ j % 256 = value / 256 ^ (j + 1) % 256 := fun j => by
      rw [Nat.div_div_eq_div_mul, ← Nat.pow_succ']
    rw [bytesFrom, List.map_cons, ih, List.range_succ_eq_map, List.map_cons, List.map_map, pow_zero, Nat.div_one]
    simp only [hrest]
    rfl

/-- The columns that a decomposition writes. -/
def columns (b : ByteRange) : List Column :=
  [b.runningSum, b.byte, b.step, b.stop]

section

variable (hnodup : b.columns.Nodup)
include hnodup

/-- Behind the first row the running sum is written one row below. -/
theorem lt_of_mem_byteCells {offset value count : Nat} {x : Column × Nat × Felt} (h : x ∈ b.byteCells offset value count)
    (hcolumn : x.1 = b.runningSum) : offset < x.2.1 := by
  simp only [columns, List.nodup_cons, List.mem_cons, List.not_mem_nil, or_false, not_or] at hnodup
  obtain ⟨⟨hbyte, hstep, hstop⟩, -⟩ := hnodup
  cases count with
  | zero =>
    obtain rfl := List.mem_singleton.mp h
    exact absurd hcolumn.symm hstop
  | succ count =>
    simp only [byteCells, List.mem_cons] at h
    rcases h with rfl | rfl | rfl | h
    · exact absurd hcolumn.symm hstep
    · exact absurd hcolumn.symm hbyte
    · exact Nat.lt_succ_self offset
    · exact (byteCells_bounds h).2.1

/-- The recurrence writes every cell once. -/
theorem unique_byteCells (offset value count : Nat) : Unique (b.byteCells offset value count) := by
  induction count generalizing offset value with
  | zero => exact Unique.of_nodup (List.nodup_singleton _)
  | succ count ih =>
    have hrow : Unique [(b.step, offset, 1), (b.byte, offset, .ofNat (value % 256)),
        (b.runningSum, offset + 1, .ofNat (value / 256))] := by
      refine Unique.of_nodup ?_
      simp only [columns, List.nodup_cons, List.mem_cons, List.not_mem_nil, or_false, not_or] at hnodup
      obtain ⟨⟨hbyte, hstep, -⟩, ⟨hstep', -⟩, -⟩ := hnodup
      simp [Ne.symm hbyte, Ne.symm hstep, Ne.symm hstep']
    refine hrow.append (ih (offset + 1) (value / 256)) fun x hx y hy hcolumn => ?_
    have hlow := (byteCells_bounds hy).2.1
    simp only [List.mem_cons, List.not_mem_nil, or_false] at hx
    rcases hx with rfl | rfl | rfl
    · exact Nat.ne_of_lt hlow
    · exact Nat.ne_of_lt hlow
    · exact Nat.ne_of_lt (lt_of_mem_byteCells hnodup hy hcolumn.symm)

/-- A decomposition writes every cell once. -/
theorem unique_sumCells (offset : Nat) (limb : AssignedCell) (bits : Nat) : Unique (b.sumCells offset limb bits) := by
  have hfirst : Unique [(b.runningSum, offset, limb.value)] := Unique.of_nodup (List.nodup_singleton _)
  refine hfirst.append (unique_byteCells hnodup offset limb.value.toNat (bits / 8)) fun x hx y hy hcolumn => ?_
  obtain rfl := List.mem_singleton.mp hx
  exact Nat.ne_of_lt (lt_of_mem_byteCells hnodup hy hcolumn.symm)

end

/-! ## What the gates say -/

/-- The gates and the lookup of a decomposition hold, and its table holds bytes only. -/
structure Accepted (b : ByteRange) (claim : Claim) : Prop where
  gates : ∀ g ∈ b.gates, ∀ row, row < claim.rows → g.Holds (claim.read row)
  lookups : ∀ l ∈ b.lookups, ∀ row, row < claim.rows → claim.Finds l row
  table : ∀ row, row < claim.rows → ∃ byte, claim.value b.table row = .ofByte byte

namespace Accepted

variable {claim : Claim} (h : b.Accepted claim)
include h

/-- Where the recurrence is switched on, the running sum loses a byte. -/
theorem step {row : Nat} (hrow : row + 1 < claim.rows) (hstep : claim.value b.step row = 1) :
    ∃ byte, claim.value b.byte row = .ofByte byte ∧
      claim.value b.runningSum row = .ofNat 256 * claim.value b.runningSum (row + 1) + .ofByte byte := by
  have hlt := Nat.lt_of_succ_lt hrow
  have hnext : claim.read row b.runningSum 1 = claim.value b.runningSum (row + 1) :=
    claim.read_of_inside _ (by omega) hrow
  have hgate := h.gates _ List.mem_cons_self row hlt
  obtain ⟨row', hrow', hfinds⟩ := h.lookups _ List.mem_cons_self row hlt
  obtain ⟨byte, hbyte⟩ := h.table row' hrow'
  refine ⟨byte, ?_, ?_⟩
  · simp only [Lookup.inputs, Lookup.table, List.map_cons, List.map_nil, List.cons.injEq, and_true, Expr.eval_mul,
      Column.eval_cur, claim.read_zero _ hlt, hstep, one_mul] at hfinds
    rw [hfinds, hbyte]
  · simp only [Lookup.inputs, Lookup.table, List.map_cons, List.map_nil, List.cons.injEq, and_true, Expr.eval_mul,
      Column.eval_cur, claim.read_zero _ hlt, hstep, one_mul] at hfinds
    simp only [Gate.holds_cons, Gate.holds_nil, and_true, Expr.eval_mul, Expr.eval_difference, Column.eval_cur,
      Column.eval_next, claim.read_zero _ hlt, hnext, hstep, one_mul, Expr.eval_ofNat] at hgate
    rw [← hbyte, ← hfinds, eq_add_of_sub_eq (sub_eq_zero.mp hgate)]
    exact add_comm _ _

/-- At the end of a decomposition nothing is left of the running sum. -/
theorem stop {row : Nat} (hrow : row < claim.rows) (hstop : claim.value b.stop row = 1) :
    claim.value b.runningSum row = 0 := by
  have hgate := h.gates _ (List.mem_cons_of_mem _ List.mem_cons_self) row hrow
  simpa [Gate.holds_cons, Gate.holds_nil, claim.read_zero _ hrow, hstop] using hgate

/-- The running sum starts with the number whose digits are the byte cells, the least significant one first. -/
theorem decomposition {row count : Nat} (hend : row + count < claim.rows)
    (hstep : ∀ i, i < count → claim.value b.step (row + i) = 1) (hstop : claim.value b.stop (row + count) = 1) :
    ∃ bytes : List UInt8, bytes.length = count ∧
      (∀ i byte, bytes[i]? = some byte → claim.value b.byte (row + i) = .ofByte byte) ∧
      claim.value b.runningSum row = .ofNat (Nat.ofDigits 256 (bytes.map UInt8.toNat)) := by
  induction count generalizing row with
  | zero => exact ⟨[], rfl, nofun, h.stop hend hstop⟩
  | succ count ih =>
    have hfirst : row + 1 < claim.rows := by omega
    have hbehind : row + 1 + count < claim.rows := by omega
    obtain ⟨byte, hbyte, hsum⟩ := h.step hfirst (hstep 0 (Nat.succ_pos _))
    obtain ⟨bytes, hlength, hbytes, hrest⟩ := ih hbehind
      (fun i hi => by
        rw [Nat.add_assoc, Nat.add_comm 1]
        exact hstep (i + 1) (Nat.succ_lt_succ hi))
      (by
        rw [Nat.add_assoc, Nat.add_comm 1]
        exact hstop)
    refine ⟨byte :: bytes, congrArg Nat.succ hlength, fun i other hother => ?_, ?_⟩
    · cases i with
      | zero =>
        obtain rfl := Option.some.inj hother
        exact hbyte
      | succ i =>
        have hrow : row + (i + 1) = row + 1 + i := by omega
        rw [hrow]
        exact hbytes i other hother
    · rw [hsum, hrest, List.map_cons, Nat.ofDigits_cons]
      simp only [Felt.ofNat_eq, Felt.ofByte_eq]
      push_cast
      ring

end Accepted

/-! ## What makes the gates hold -/

/-- The gates hold on a row where each is switched off or finds what it asks for: a number, its last byte and the number
without it, or nothing left. -/
theorem holds_gates {claim : Claim} {row : Nat} (hrow : row < claim.rows)
    (hstep : claim.value b.step row = 0 ∨ row + 1 < claim.rows ∧ ∃ left : Nat,
      claim.value b.runningSum row = .ofNat left ∧ claim.value b.byte row = .ofNat (left % 256) ∧
        claim.value b.runningSum (row + 1) = .ofNat (left / 256))
    (hstop : claim.value b.stop row = 0 ∨ claim.value b.runningSum row = 0) : ∀ g ∈ b.gates, g.Holds (claim.read row) := by
  simp only [gates, List.forall_mem_cons, List.not_mem_nil, false_implies, implies_true, and_true, Gate.holds_cons,
    Gate.holds_nil, Expr.eval_mul, Expr.eval_difference, Expr.eval_ofNat, Column.eval_cur, Column.eval_next,
    claim.read_zero _ hrow]
  refine ⟨?_, mul_eq_zero.mpr hstop⟩
  rcases hstep with hoff | ⟨hinside, left, hsum, hbyte, hnext⟩
  · rw [hoff, zero_mul]
  · have hsplit : (left : Felt) = (256 : Nat) * (left / 256 : Nat) + (left % 256 : Nat) := by
      rw [← Nat.cast_mul, ← Nat.cast_add, Nat.div_add_mod]
    rw [hsum, hbyte, claim.read_of_inside b.runningSum (Int.natCast_succ row).symm hinside, hnext, Felt.ofNat_eq,
      Felt.ofNat_eq, Felt.ofNat_eq, Felt.ofNat_eq, sub_sub, ← hsplit, sub_self, mul_zero]

/-- The lookup finds its input on a row where it is switched off or sees a byte, when the table holds the bytes. -/
theorem finds_lookups {claim : Claim} {row : Nat} (hrow : row < claim.rows) (hsize : tableSize ≤ claim.rows)
    (htable : ∀ n, n < tableSize → claim.value b.table n = .ofNat n)
    (hstep : claim.value b.step row = 0 ∨ claim.value b.step row = 1 ∧ ∃ n, n < tableSize ∧ claim.value b.byte row = .ofNat n) :
    ∀ l ∈ b.lookups, claim.Finds l row := by
  have hexists : ∃ n, n < tableSize ∧ claim.value b.step row * claim.value b.byte row = .ofNat n := by
    rcases hstep with hoff | ⟨hon, n, hn, hbyte⟩
    · exact ⟨0, by decide, by rw [hoff, zero_mul]; rfl⟩
    · exact ⟨n, hn, by rw [hon, one_mul, hbyte]⟩
  obtain ⟨n, hn, hvalue⟩ := hexists
  intro l hl
  obtain rfl := List.mem_singleton.mp hl
  refine ⟨n, Nat.lt_of_lt_of_le hn hsize, ?_⟩
  simp only [Lookup.inputs, Lookup.table, List.map_cons, List.map_nil, Expr.eval_mul, Column.eval_cur,
    claim.read_zero _ hrow, hvalue, htable n hn]

end ScriptCircuit.ByteRange
