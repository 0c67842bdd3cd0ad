import Mathlib
import ScriptCircuit.Field.Combination
import ScriptCircuit.Proofs.Execution.Region
import ScriptCircuit.Proofs.Script.Run

/-!
# The rows of a script

What follows from the gates for the rows as a whole, whoever chose them: the counter of the first row is the length of a
script that fits, every row up to that length holds one of its bytes, and pushed data and length fields end before the script
does.
-/

namespace ScriptCircuit.Execution

/-- Views that satisfy the gates and the lookup of a region, those of the enabled opcodes and of the final item apart. -/
structure Rows (V : Nat → View) : Prop where
  first : FirstStep (V 0) (V 1)
  byte : ∀ i, i < maxScriptSize → ByteStep (V i) (V (i + 1)) (V (i + 2))
  table : ∀ i, i < maxScriptSize →
    (∃ byte, (V (i + 1)).Classified byte) ∨ ((V (i + 1)).opcode = 0 ∧ (V (i + 1)).enabled = 0)
  last : LastStep (V maxScriptSize) (V (maxScriptSize + 1))

/-- The views of an accepted region. -/
theorem Columns.Accepted.rows {c : Columns} {claim : Claim} {start : Nat} (h : c.Accepted claim start) :
    Rows fun i => c.rowView claim (start + i) where
  first := h.firstStep
  byte i hi := h.byteStep hi
  table i hi := by
    obtain ⟨row, -, hrow⟩ := h.table hi
    exact tuple_eq_tableRow hrow
  last := h.lastStep

/-- The byte of an element. -/
def byteOf (x : Felt) : UInt8 :=
  .ofNat x.toNat

/-- A byte is read back from its field element. -/
theorem byteOf_ofByte (b : UInt8) : byteOf (.ofByte b) = b := by
  have hb := b.toNat_lt
  rw [byteOf, Felt.ofByte_eq, Felt.toNat_natCast_of_lt (by omega)]
  exact UInt8.ofNat_toNat

/-- The number that an opcode pushes. -/
theorem ofByte_sub_reserved {byte : UInt8} (h : Opcode.class? byte = some .pushNumber) :
    Felt.ofByte (byte - Opcode.reserved) = .ofByte byte - .ofNat 0x50 := by
  have hle := Opcode.reserved_le h
  rw [Felt.ofByte_eq, Felt.ofByte_eq, Felt.ofNat_eq, UInt8.toNat_sub_of_le _ _ hle,
    Nat.cast_sub (UInt8.le_iff_toNat_le.mp hle)]
  rfl

namespace Rows

/-- The number of bytes the first row announces. -/
def length (V : Nat → View) : Nat :=
  (V 0).scriptLeft.toNat

/-- The bytes of the rows up to the announced length. -/
def script (V : Nat → View) : List UInt8 :=
  (List.range (length V)).map fun i => byteOf (V (i + 1)).opcode

/-- The script read off the rows is as long as the first row says. -/
theorem length_script (V : Nat → View) : (script V).length = length V := by
  rw [script, List.length_map, List.length_range]

/-- Byte `i` of the script stands in row `i + 1`. -/
theorem getElem_script (V : Nat → View) {i : Nat} (h : i < (script V).length) :
    (script V)[i] = byteOf (V (i + 1)).opcode := by
  simp [script]

variable {V : Nat → View} (h : Rows V)
include h

/-! ## The counter of script bytes -/

/-- The counter of script bytes falls by one from row to row and stops at zero. -/
theorem countdown {i : Nat} (hi : i ≤ maxScriptSize) : (V (i + 1)).scriptLeft = ((length V - i : Nat) : Felt) := by
  induction i with
  | zero =>
    rw [h.first.scriptLeft, length, Nat.sub_zero, Felt.natCast_toNat]
  | succ i ih =>
    have hcur := ih (Nat.le_of_succ_le hi)
    by_cases hzero : (V (i + 1)).scriptLeft = 0
    · have hlt : length V - i < 18446744069414584321 := Nat.lt_of_le_of_lt (Nat.sub_le ..) (V 0).scriptLeft.toNat_lt
      rw [hcur, Felt.natCast_eq_zero hlt] at hzero
      rw [((h.byte i hi).behind (by rw [hcur, hzero, Nat.cast_zero])).2, Nat.sub_succ, hzero]
      exact Nat.cast_zero.symm
    · have hnext := ((h.byte i hi).script hzero).2
      have hpos : 0 < length V - i := by
        refine Nat.pos_of_ne_zero fun hnil => hzero ?_
        rw [hcur, hnil, Nat.cast_zero]
      rw [hcur, ← Nat.succ_pred_eq_of_pos hpos, Nat.cast_succ, add_left_inj] at hnext
      exact hnext

/-- The announced script fits into the region. -/
theorem length_le : length V ≤ maxScriptSize := by
  have hlast := h.countdown (Nat.le_refl _)
  have hlt : length V - maxScriptSize < 18446744069414584321 :=
    Nat.lt_of_le_of_lt (Nat.sub_le ..) (V 0).scriptLeft.toNat_lt
  rw [h.last.scriptLeft] at hlast
  exact Nat.le_of_sub_eq_zero ((Felt.natCast_eq_zero hlt).mp hlast.symm)

/-- The rows with bytes left to read are those of the script. -/
theorem scriptLeft_ne_zero {i : Nat} (hi : i < maxScriptSize) : (V (i + 1)).scriptLeft ≠ 0 ↔ i < length V := by
  have hlt : length V - i < 18446744069414584321 := Nat.lt_of_le_of_lt (Nat.sub_le ..) (V 0).scriptLeft.toNat_lt
  rw [h.countdown (Nat.le_of_lt hi), Ne, Felt.natCast_eq_zero hlt]
  omega

/-- The bytes of the script lie in the rows for bytes. -/
theorem lt_maxScriptSize {i : Nat} (hi : i < length V) : i < maxScriptSize :=
  Nat.lt_of_lt_of_le hi h.length_le

/-- The row of a byte of the script, with its neighbours and what is left to read. -/
theorem active {i : Nat} (hi : i < length V) :
    ByteStep (V i) (V (i + 1)) (V (i + 2)) ∧ (V (i + 1)).scriptLeft ≠ 0 :=
  ⟨h.byte i (h.lt_maxScriptSize hi), (h.scriptLeft_ne_zero (h.lt_maxScriptSize hi)).mpr hi⟩

/-- All rows hold the same challenge. -/
theorem challenge {i : Nat} (hi : i ≤ maxScriptSize + 1) : (V i).challenge = (V 0).challenge := by
  induction i with
  | zero => rfl
  | succ i ih =>
    rw [← ih (Nat.le_of_succ_le hi)]
    rcases Nat.lt_or_eq_of_le (Nat.le_of_succ_le_succ hi) with hlt | rfl
    · exact (h.byte i hlt).challenge
    · exact h.last.challenge

/-- Every row of a byte holds a byte. -/
theorem opcode_eq {i : Nat} (hi : i < maxScriptSize) :
    (V (i + 1)).opcode = .ofByte (byteOf (V (i + 1)).opcode) := by
  rcases h.table i hi with ⟨byte, hbyte⟩ | ⟨hzero, -⟩
  · rw [hbyte.opcode, byteOf_ofByte]
  · rw [hzero]
    rfl

/-! ## Pushes end before the script does -/

/-- Behind the script nothing is left of a push. -/
theorem opens_behind : (V (length V + 1)).Opens := by
  rcases Nat.lt_or_eq_of_le h.length_le with hlt | heq
  · have hzero : (V (length V + 1)).scriptLeft = 0 := by
      by_contra hne
      exact Nat.lt_irrefl _ ((h.scriptLeft_ne_zero hlt).mp hne)
    have hfrozen := (h.byte _ hlt).frozen hzero
    exact ⟨hfrozen.2.2.1, hfrozen.2.2.2.1⟩
  · rw [heq]
    exact ⟨h.last.dataLeft, h.last.lengthLeft⟩

omit h in
/-- A counter that falls by one from row to row, as long as a condition holds and it is not zero, and that is zero on the last
row, was never more than the rows to come. -/
theorem counter_le (counter : Nat → Felt) (P : Nat → Prop) {n : Nat} (hlast : counter n = 0)
    (hstep : ∀ i < n, P i → counter i ≠ 0 → P (i + 1) ∧ counter (i + 1) + 1 = counter i) {i k : Nat} (hi : i ≤ n)
    (hlt : k < 18446744069414584321) (hP : P i) (hk : counter i = k) : k ≤ n - i := by
  induction k generalizing i with
  | zero => exact Nat.zero_le _
  | succ k ih =>
    have hne : counter i ≠ 0 := by
      rw [hk, Ne, Felt.natCast_eq_zero hlt]
      exact Nat.succ_ne_zero k
    -- The counter is not zero yet, so this is not the last row.
    have hin : i < n := Nat.lt_of_le_of_ne hi fun heq => hne (heq ▸ hlast)
    obtain ⟨hP', hnext⟩ := hstep i hin hP hne
    rw [hk, Nat.cast_succ, add_left_inj] at hnext
    have hrest := ih hin (Nat.lt_of_succ_lt hlt) hP' hnext
    omega

/-- The data that a row announces fits into what is left of the script. -/
theorem data_le {i d : Nat} (hi : i ≤ length V) (hlt : d < 18446744069414584321) (hlength : (V (i + 1)).lengthLeft = 0)
    (hdata : (V (i + 1)).dataLeft = d) : d ≤ length V - i := by
  refine counter_le (fun i => (V (i + 1)).dataLeft) (fun i => (V (i + 1)).lengthLeft = 0) h.opens_behind.1
    (fun i hi hlength hne => ?_) hi hlt hlength hdata
  obtain ⟨hstep, hactive⟩ := h.active hi
  obtain ⟨-, hnext, hlength'⟩ := hstep.dataByte ⟨hactive, hne, hlength⟩
  exact ⟨hlength', hnext⟩

/-- The length field that a row announces fits into what is left of the script. -/
theorem lengthField_le {i k : Nat} (hi : i ≤ length V) (hlt : k < 18446744069414584321)
    (hlength : (V (i + 1)).lengthLeft = k) : k ≤ length V - i := by
  refine counter_le (fun i => (V (i + 1)).lengthLeft) (fun _ => True) h.opens_behind.2
    (fun i hi _ hne => ?_) hi hlt trivial hlength
  obtain ⟨hstep, hactive⟩ := h.active hi
  obtain ⟨-, hnext, -⟩ := hstep.lengthByte ⟨hactive, hne⟩
  exact ⟨trivial, hnext⟩

end Rows

end ScriptCircuit.Execution
