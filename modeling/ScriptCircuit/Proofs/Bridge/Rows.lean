import Mathlib
import ScriptCircuit.Proofs.Bridge.Gates
import ScriptCircuit.Proofs.Bridge.Placement

/-!
# The rows of an accepted bridge

In an accepted bridge every slot takes its step, and behind the slots nothing is left. From the last row upwards the count
is therefore the number of slots in use, and the accumulator is the sum of their combinations with the powers of the
challenge.
-/

namespace ScriptCircuit.Bridge

/-- The views of the bridge rows: every slot takes its step and nothing is left behind the slots. -/
structure Rows (V : Nat → View) : Prop where
  slot : ∀ i, i < maxSignatures → SlotStep (V i) (V (i + 1))
  checks : (V maxSignatures).checks = 0
  keyAcc : (V maxSignatures).keyAcc = 0

namespace Rows

variable {V : Nat → View} (h : Rows V)
include h

/-- All rows have the challenge of the first one. -/
theorem challenge {i : Nat} (hi : i ≤ maxSignatures) : (V i).challenge = (V 0).challenge := by
  induction i with
  | zero => rfl
  | succ i ih => rw [(h.slot i hi).challenge, ih (Nat.le_of_succ_le hi)]

/-- The rows from a row on: the count is a number of slots that are there, and the accumulator folds their keys. -/
theorem fold {i : Nat} (hi : i ≤ maxSignatures) : i + (V i).checks.toNat ≤ maxSignatures ∧
    (V i).keyAcc = ∑ j ∈ Finset.range (V i).checks.toNat, (V 0).challenge ^ j * (V (i + j)).keyCombination := by
  induction hn : maxSignatures - i generalizing i with
  | zero =>
    obtain rfl : i = maxSignatures := by omega
    rw [h.checks, h.keyAcc]
    exact ⟨Nat.le_refl _, rfl⟩
  | succ n ih =>
    have hlt : i < maxSignatures := by omega
    have hstep := h.slot i hlt
    by_cases hzero : (V i).checks = 0
    · obtain ⟨hkey, -⟩ := hstep.unused hzero
      rw [hkey, hzero]
      exact ⟨hi, rfl⟩
    · obtain ⟨hkey, hchecks⟩ := hstep.used hzero
      obtain ⟨hle, hrest⟩ := ih (i := i + 1) hlt (by omega)
      have hcount : (V i).checks.toNat = (V (i + 1)).checks.toNat + 1 := by
        rw [← hchecks, Felt.toNat_add_one (hchecks.symm ▸ hzero)]
      refine ⟨by omega, ?_⟩
      rw [hkey, hrest, hcount, Finset.sum_range_succ', pow_zero, one_mul, Nat.add_zero, h.challenge hi, Finset.mul_sum,
        add_comm]
      refine congrArg₂ _ (Finset.sum_congr rfl fun j _ => ?_) rfl
      rw [pow_succ', mul_assoc, Nat.add_assoc, Nat.add_comm 1]

end Rows

namespace Columns

variable {c : Columns} {claim : Claim} {verification range bridge : Nat}

/-- The view of a row of a claim. -/
def rowView (c : Columns) (claim : Claim) (row : Nat) : View :=
  c.view fun column => claim.value column row

theorem cur_read {row : Nat} (h : row < claim.rows) : c.cur (claim.read row) = c.rowView claim row :=
  congrArg c.view (funext fun column => claim.read_zero column h)

/-- A gate reads the view of the row after. -/
theorem next_read {row : Nat} (h : row + 1 < claim.rows) : c.next (claim.read row) = c.rowView claim (row + 1) :=
  congrArg c.view (funext fun column => claim.read_of_inside column (by omega) h)

/-- A bridge whose gates and lookups all hold. -/
structure Accepted (c : Columns) (claim : Claim) (verification range bridge : Nat) : Prop where
  placed : c.Placed claim verification range bridge
  gates : ∀ g ∈ c.verification.gates ++ (c.range.gates ++ c.gates), ∀ row, row < claim.rows → g.Holds (claim.read row)
  lookups : ∀ l ∈ c.range.lookups ++ c.lookups, ∀ row, row < claim.rows → claim.Finds l row

namespace Accepted

variable (h : c.Accepted claim verification range bridge)
include h

/-- The bridge rows lie in the matrix. -/
theorem row_lt {i : Nat} (hi : i ≤ maxSignatures) : bridge + i < claim.rows :=
  Nat.lt_of_lt_of_le (Nat.add_lt_add_left (Nat.lt_succ_of_le hi) bridge) h.placed.bridge_le

/-- In an accepted bridge every gate holds on every row. -/
theorem gate {g : Gate} (hg : g ∈ c.gates) {row : Nat} (hrow : row < claim.rows) : g.Holds (claim.read row) :=
  h.gates g (List.mem_append_right _ (List.mem_append_right _ hg)) row hrow

/-- The row of a slot is marked as one. -/
theorem read_slot {i : Nat} (hi : i < maxSignatures) : claim.read (bridge + i) c.isSlot 0 = 1 := by
  have hrow := h.row_lt (Nat.le_of_lt hi)
  rw [claim.read_zero c.isSlot hrow, h.placed.slot _ hrow, if_pos ⟨by omega, by omega⟩]

/-- In an accepted bridge every row of a slot follows the gates. -/
theorem slotStep {i : Nat} (hi : i < maxSignatures) :
    SlotStep (c.rowView claim (bridge + i)) (c.rowView claim (bridge + (i + 1))) := by
  have hrow := h.row_lt (Nat.le_of_lt hi)
  have hslot := h.read_slot hi
  have hone : c.isSlot.cur.eval (claim.read (bridge + i)) ≠ 0 := by
    rw [Column.eval_cur, hslot]
    exact one_ne_zero
  have hexact : c.done.Exact (claim.read (bridge + i)) := (IsZero.holds_gate_iff hone).mp
    (h.gate (g := c.done.gate "num_checksig_opcodes" c.isSlot.cur) (by simp [Columns.gates]) hrow)
  have hnext : bridge + i + 1 < claim.rows := h.row_lt (i := i + 1) hi
  have hstep := (slotStep_iff hslot hexact).mpr ⟨h.gate (by simp [Columns.gates]) hrow, h.gate (by simp [Columns.gates]) hrow,
    h.gate (by simp [Columns.gates]) hrow⟩
  rw [cur_read hrow, next_read hnext] at hstep
  exact hstep

/-- The bridge rows of an accepted bridge follow each other. -/
theorem rows : Rows fun i => c.rowView claim (bridge + i) := by
  have hrow := h.row_lt (Nat.le_refl maxSignatures)
  have hend : claim.read (bridge + maxSignatures) c.isEnd 0 = 1 := by
    rw [claim.read_zero c.isEnd hrow, h.placed.last _ hrow, if_pos rfl]
  have hleft := (holds_endGate hend).mp (h.gate (by simp [Columns.gates]) hrow)
  rw [cur_read hrow] at hleft
  exact ⟨fun i hi => h.slotStep hi, hleft.1, hleft.2⟩

/-- The decomposition of the bridge is accepted. -/
theorem range_accepted : c.range.Accepted claim where
  gates g hg row hrow := h.gates g (List.mem_append_right _ (List.mem_append_left _ hg)) row hrow
  lookups l hl row hrow := h.lookups l (List.mem_append_left _ hl) row hrow
  table row hrow := by
    rw [h.placed.bytes row hrow]
    by_cases hlt : row < ByteRange.tableSize
    · refine ⟨.ofNat row, ?_⟩
      rw [if_pos hlt, Felt.ofByte_eq, Felt.ofNat_eq, UInt8.toNat_ofNat_of_lt' hlt]
    · rw [if_neg hlt]
      exact ⟨0, rfl⟩

end Accepted

end Columns

end ScriptCircuit.Bridge
