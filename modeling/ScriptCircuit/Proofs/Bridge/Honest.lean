import Mathlib
import ScriptCircuit.Proofs.Bridge.Assignment
import ScriptCircuit.Proofs.Curve.PublicKey

/-!
# The gates accept a bridge over slots

Slots whose first byte is that of a serial form of their key take their steps in the bridge rows: the accumulators fold the
combinations of the slots in use from the last to the first. With the decompositions of the keys and the rows of the two
tables, all gates and lookups of the bridge hold.
-/

namespace ScriptCircuit

/-- A word ends in a byte of its parity. -/
theorem Word.byteAt_zero (w : Word) : (w.byteAt 0).toNat % 2 = w.toNat % 2 := by
  rw [byteAt, UInt8.toNat_ofNat', Nat.mul_zero, Nat.shiftRight_zero]
  omega

namespace Bridge

open Combination

/-! ## The fold of the slots -/

/-- A fold is what a key adds to the fold behind it. -/
theorem foldKeys_cons (r key : Felt) (rest : List Felt) :
    foldKeys r (key :: rest) = (key + r * (foldKeys r rest).headD 0) :: foldKeys r rest := by
  induction rest generalizing key with
  | nil => rfl
  | cons key' rest ih =>
    rw [foldKeys, ih key']
    rfl

/-- The folds of the tails of a list of keys, and zeros behind them. -/
theorem getD_foldKeys (r : Felt) (keys : List Felt) (i : Nat) :
    (foldKeys r keys).getD i 0 = (keys.drop i).foldr (fun key acc => key + r * acc) 0 := by
  induction keys generalizing i with
  | nil => cases i <;> simp [foldKeys]
  | cons key rest ih =>
    rw [foldKeys_cons]
    cases i with
    | zero =>
      have hhead : (foldKeys r rest).headD 0 = (foldKeys r rest).getD 0 0 := by cases foldKeys r rest <;> rfl
      rw [hhead, ih 0]
      rfl
    | succ i => exact ih i

/-- The first byte of a slot is that of a serial form of its key. -/
def Slot.Formed (slot : Slot) : Prop :=
  ∃ compressed, slot.form = slot.key.form compressed

/-- The form of a slot is the full one, or the short one for the parity of its key. -/
theorem Slot.Formed.cases {slot : Slot} (h : slot.Formed) : slot.form = PublicKey.fullForm ∨
    slot.form = ParityTable.shortForm (slot.key.y.byteAt 0) ∧ slot.form ≠ PublicKey.fullForm := by
  obtain ⟨compressed, h⟩ := h
  rw [h]
  cases compressed with
  | false => exact .inl rfl
  | true =>
    refine .inr ?_
    have hparity := slot.key.y.byteAt_zero
    unfold PublicKey.form PublicKey.isOdd ParityTable.shortForm
    rw [hparity]
    by_cases hodd : slot.key.y.toNat % 2 = 1
    · simp [hodd, PublicKey.oddForm, PublicKey.fullForm]
    · have heven : slot.key.y.toNat % 2 = 0 := by omega
      simp [heven, PublicKey.evenForm, PublicKey.fullForm]

/-- The combination in a view is that of its slot. -/
theorem View.Shows.combination_view {v : View} {r acc : Felt} {count : Nat} {slot : Slot} (h : v.Shows r count acc slot)
    (hformed : slot.Formed) : v.keyCombination = v.combination := by
  have hbytes : ∀ {w : Word} {xs : Vector Felt 32}, (∀ k (hk : k < 32), xs[k] = .ofByte (w.byteAt k)) →
      xs.toList = w.bytes.reverse.map .ofByte := by
    intro w xs hxs
    rw [Word.bytes_reverse, List.map_map]
    refine List.ext_getElem (by simp) fun k hk _ => ?_
    rw [Vector.length_toList] at hk
    simp [hxs k hk]
  have hserial : slot.form = slot.key.form (slot.form ≠ PublicKey.fullForm) := by
    obtain ⟨compressed, hform⟩ := hformed
    rw [hform, PublicKey.form_ne_full]
  have hform : v.form = .ofByte (slot.key.form (slot.form ≠ PublicKey.fullForm)) := by rw [← hserial, h.form]
  rw [h.keyCombination, View.combination_of_key h.challenge hform (hbytes h.x) (hbytes h.y), Slot.combination]

/-- A slot takes its step to the row behind it. -/
theorem View.Shows.step {cur next : View} {r acc : Felt} {count : Nat} {slot : Slot} (h : cur.Shows r count acc slot)
    (hformed : slot.Formed) (hcount : count ≤ maxSignatures) (hchallenge : next.challenge = r)
    (hchecks : next.checks = .ofNat (count - 1)) (hused : 0 < count → acc = slot.combination r + r * next.keyAcc)
    (hunused : count = 0 → acc = 0) : SlotStep cur next := by
  have hzero : cur.checks = 0 ↔ count = 0 := by
    rw [h.checks, Felt.ofNat_eq, Felt.natCast_eq_zero (Nat.lt_of_le_of_lt hcount (by decide))]
  refine ⟨hchallenge.trans h.challenge.symm, ?_, ?_, h.combination_view hformed, fun hne => ?_, fun heq => ?_⟩
  · intro k hk
    rw [h.powers k hk, h.challenge]
  · obtain ⟨compressed, hform⟩ := hformed
    rw [h.form, hform]
    exact ofByte_form slot.key compressed
  · have hpos : 0 < count := Nat.pos_of_ne_zero fun heq => hne (hzero.mpr heq)
    refine ⟨?_, ?_⟩
    · rw [h.keyAcc, h.keyCombination, h.challenge, hused hpos]
    · rw [hchecks, h.checks, Felt.ofNat_eq, Felt.ofNat_eq, ← Nat.cast_succ, Nat.succ_eq_add_one, Nat.sub_add_cancel hpos]
  · have heq := hzero.mp heq
    refine ⟨?_, ?_⟩
    · rw [h.keyAcc, hunused heq]
    · rw [hchecks, heq]
      rfl

/-! ## The rows of the tables -/

/-- The full form stands beside every byte. -/
theorem parityRow_full (byte : UInt8) : Columns.parityRow byte.toNat = (PublicKey.fullForm, byte) := by
  have hlt := byte.toNat_lt
  simp [Columns.parityRow, ParityTable.rows, List.getElem?_append, hlt]

/-- A short form stands beside every byte. -/
theorem parityRow_short (byte : UInt8) : Columns.parityRow (256 + byte.toNat) = (ParityTable.shortForm byte, byte) := by
  have hlt := byte.toNat_lt
  simp [Columns.parityRow, ParityTable.rows, List.getElem?_append, hlt]

/-- A row of zeros stands at the end. -/
theorem parityRow_last : Columns.parityRow 512 = (0, 0) := by
  simp [Columns.parityRow, ParityTable.rows]

namespace Columns

variable {r : Felt} {slots : List Slot} {count : Nat}

/-- The accumulator of a slot in use folds its combination over the next accumulator. -/
theorem accumulators_used {i : Nat} {slot : Slot} (hslot : slots[i]? = some slot) (hi : i < count) :
    (accumulators r slots count).getD i 0 = slot.combination r + r * (accumulators r slots count).getD (i + 1) 0 := by
  obtain ⟨hlt, rfl⟩ := List.getElem?_eq_some_iff.mp hslot
  have hlength : i < ((slots.take count).map (·.combination r)).length := by
    rw [List.length_map, List.length_take]
    exact Nat.lt_min.mpr ⟨hi, hlt⟩
  rw [accumulators, getD_foldKeys, getD_foldKeys, List.drop_eq_getElem_cons hlength, List.foldr_cons, List.getElem_map,
    List.getElem_take]

/-- Behind the slots in use the accumulators are zero. -/
theorem accumulators_unused {i : Nat} (hi : count ≤ i) : (accumulators r slots count).getD i 0 = 0 := by
  rw [accumulators, getD_foldKeys, List.drop_eq_nil_of_le (by rw [List.length_map, List.length_take]; omega)]
  rfl

/-- Away from the rows of the slots their gates are switched off. -/
theorem holds_of_not_slot {c : Columns} {claim : Claim} {row : Nat} (hoff : claim.read row c.isSlot 0 = 0) :
    c.powersGate.Holds (claim.read row) ∧ c.combinationGate.Holds (claim.read row) ∧
      (c.done.gate "num_checksig_opcodes" c.isSlot.cur).Holds (claim.read row) ∧ c.foldGate.Holds (claim.read row) := by
  refine ⟨?_, ?_, IsZero.holds_gate_of_off hoff, ?_⟩
  · simp [Gate.Holds, powersGate, Expr.eval_mul, hoff]
  · simp [Gate.Holds, combinationGate, Expr.eval_mul, hoff]
  · simp [Gate.Holds, foldGate, Expr.eval_mul, hoff]

/-! ## What the rows hold -/

namespace Filled

variable {c : Columns} {claim : Claim} {verification range bridge : Nat}
  (h : c.Filled claim verification range bridge r slots count)
include h

theorem exists_slot {i : Nat} (hi : i < maxSignatures) : ∃ slot ∈ slots, slots[i]? = some slot := by
  rw [← h.full] at hi
  exact ⟨slots[i], List.getElem_mem hi, List.getElem?_eq_getElem hi⟩

/-- What all bridge rows hold. -/
theorem accumulator_values {i : Nat} (hi : i ≤ maxSignatures) : (c.rowView claim (bridge + i)).challenge = r ∧
    (c.rowView claim (bridge + i)).checks = .ofNat (count - i) ∧
    (c.rowView claim (bridge + i)).keyAcc = (accumulators r slots count).getD i 0 := by
  rcases Nat.lt_or_eq_of_le hi with hlt | rfl
  · obtain ⟨slot, -, hslot⟩ := h.exists_slot hlt
    exact ⟨(h.shows hslot).challenge, (h.shows hslot).checks, (h.shows hslot).keyAcc⟩
  · obtain ⟨hchecks, hkeyAcc, hchallenge⟩ := h.last_value
    exact ⟨hchallenge, hchecks, hkeyAcc⟩

/-- The cells of the first bridge row that are shared with other regions. -/
theorem shared_hold : claim.Holds (c.challenge, bridge, r) ∧ claim.Holds (c.checks, bridge, .ofNat count) ∧
    claim.Holds (c.keyAcc, bridge, (accumulators r slots count).getD 0 0) := by
  obtain ⟨slot, -, hslot⟩ := h.exists_slot (i := 0) (by decide)
  have hrow : (c.slotsWithBytes verification range slots)[0]? = some (slot, c.slotBytes verification range (slot, 0)) := by
    rw [slotsWithBytes, List.getElem?_zip_eq_some, List.getElem?_map, List.getElem?_zipIdx, hslot]
    simp
  have hlt : bridge + 0 < UInt64.size :=
    Nat.lt_of_lt_of_le (Nat.add_lt_add_left (by decide) bridge) (Nat.le_trans h.placed.bridge_le h.size)
  have hcell : ∀ {column x}, (column, 0, x) ∈ c.accumulatorCells 0 r count ((accumulators r slots count).getD 0 0) →
      claim.Holds (column, bridge, x) := by
    intro column x hmem
    have hheld := h.rows_hold (c.slotRow_subset r 0 count _ hrow (List.mem_append_left _ hmem))
    rw [rowAt_eq hlt] at hheld
    exact hheld
  exact ⟨hcell (by simp [accumulatorCells]), hcell (by simp [accumulatorCells]), hcell (by simp [accumulatorCells])⟩

/-! ## The verified signatures and the decompositions -/

/-- The gates of the verified signatures. -/
theorem holds_verification {row : Nat} (hrow : row < claim.rows) :
    ∀ g ∈ c.verification.gates, g.Holds (claim.read row) := by
  intro g hg
  obtain rfl := List.mem_singleton.mp hg
  simp only [Gate.holds_cons, Gate.holds_nil, and_true, Expr.eval_mul, Expr.eval_difference, Expr.eval_one, Column.eval_cur,
    claim.read_zero _ hrow, h.placed.enable row hrow]
  by_cases hmark : verification ≤ row ∧ row < verification + maxSignatures
  · obtain ⟨i, rfl⟩ := Nat.exists_eq_add_of_le hmark.1
    obtain ⟨slot, -, hslot⟩ := h.exists_slot (Nat.lt_of_add_lt_add_left hmark.2)
    rw [h.verified_value hslot, sub_self, mul_zero]
  · rw [if_neg hmark, zero_mul]

/-- The limb of a row of the decompositions. -/
theorem exists_limb {row : Nat} (hlow : range ≤ row) (hhigh : row < range + maxSignatures * 16 * limbRows) :
    ∃ i k slot, slots[i]? = some slot ∧ k < 16 ∧ row = range + (i * 16 + k) * limbRows + (row - range) % limbRows := by
  have hmax : maxSignatures * 16 * limbRows = 320 := rfl
  have hlimbRows : limbRows = 5 := rfl
  rw [hmax] at hhigh
  have hi : (row - range) / 80 < maxSignatures := by
    change _ < 4
    omega
  obtain ⟨slot, -, hslot⟩ := h.exists_slot hi
  refine ⟨_, (row - range) / 5 % 16, slot, hslot, Nat.mod_lt _ (by decide), ?_⟩
  rw [hlimbRows]
  omega

/-- In the row of a byte stand what is left of its limb and the byte, and behind it what is left without the byte. -/
theorem byte_row {row : Nat} (hbyte : ByteRange.AtByte range (maxSignatures * 16) row) : ∃ left : Nat,
    claim.value c.range.runningSum row = .ofNat left ∧ claim.value c.range.byte row = .ofNat (left % 256) ∧
      claim.value c.range.runningSum (row + 1) = .ofNat (left / 256) := by
  obtain ⟨hlow, hhigh, hmod⟩ := hbyte
  obtain ⟨i, k, slot, hslot, hk, hrow⟩ := h.exists_limb hlow hhigh
  obtain ⟨hbytes, hsums⟩ := h.decomposition hslot hk
  have hsum := hsums _ (Nat.le_of_lt hmod)
  have hbyte := hbytes _ hmod
  have hnext := hsums ((row - range) % limbRows + 1) hmod
  rw [← Nat.add_assoc, ← hrow, Nat.pow_succ, ← Nat.div_div_eq_div_mul] at hnext
  rw [← hrow] at hsum hbyte
  exact ⟨_, hsum, hbyte, hnext⟩

/-- Behind the bytes of a limb nothing is left. -/
theorem end_row {row : Nat} (hend : ByteRange.AtEnd range (maxSignatures * 16) row) :
    claim.value c.range.runningSum row = 0 := by
  obtain ⟨hlow, hhigh, hmod⟩ := hend
  obtain ⟨i, k, slot, hslot, hk, hrow⟩ := h.exists_limb hlow hhigh
  have hsum := (h.decomposition hslot hk).2 4 (Nat.le_refl 4)
  have hlt : slot.key.limb k < 256 ^ 4 := slot.key.limb_lt k
  rw [hmod] at hrow
  rw [← hrow, Nat.div_eq_of_lt hlt] at hsum
  exact hsum

/-- The gates of the decompositions. -/
theorem holds_range {row : Nat} (hrow : row < claim.rows) : ∀ g ∈ c.range.gates, g.Holds (claim.read row) := by
  refine ByteRange.holds_gates hrow ?_ ?_
  · rw [h.placed.step row hrow]
    by_cases hbyte : ByteRange.AtByte range (maxSignatures * 16) row
    · refine .inr ⟨?_, h.byte_row hbyte⟩
      obtain ⟨-, hhigh, hmod⟩ := hbyte
      have hend := h.placed.range_le
      simp only [limbRows, slotRows, ByteRange.rowsFor, maxSignatures] at hhigh hmod hend
      omega
    · exact .inl (if_neg hbyte)
  · rw [h.placed.stop row hrow]
    by_cases hend : ByteRange.AtEnd range (maxSignatures * 16) row
    · exact .inr (h.end_row hend)
    · exact .inl (if_neg hend)

/-- The lookup of the bytes. -/
theorem finds_range (hsize : ByteRange.tableSize ≤ claim.rows) {row : Nat} (hrow : row < claim.rows) :
    ∀ l ∈ c.range.lookups, claim.Finds l row := by
  refine ByteRange.finds_lookups hrow hsize (fun n hn => ?_) ?_
  · rw [h.placed.bytes n (Nat.lt_of_lt_of_le hn hsize), if_pos hn]
  · rw [h.placed.step row hrow]
    by_cases hbyte : ByteRange.AtByte range (maxSignatures * 16) row
    · obtain ⟨left, -, hvalue, -⟩ := h.byte_row hbyte
      exact .inr ⟨if_pos hbyte, left % 256, Nat.mod_lt _ (by decide), hvalue⟩
    · exact .inl (if_neg hbyte)

/-! ## The bridge rows -/

variable (hformed : ∀ slot ∈ slots, slot.Formed) (hcount : count ≤ maxSignatures)
include hformed hcount

/-- Every slot takes its step. -/
theorem slotStep {i : Nat} (hi : i < maxSignatures) :
    SlotStep (c.rowView claim (bridge + i)) (c.rowView claim (bridge + (i + 1))) := by
  obtain ⟨slot, hmem, hslot⟩ := h.exists_slot hi
  obtain ⟨hchallenge, hchecks, hkeyAcc⟩ := h.accumulator_values (i := i + 1) hi
  refine (h.shows hslot).step (hformed slot hmem) (by omega) hchallenge hchecks (fun hpos => ?_) fun hzero => ?_
  · rw [hkeyAcc]
    exact accumulators_used hslot (by omega)
  · exact accumulators_unused (by omega)

/-- The gates of the row of a slot. -/
theorem holds_slot {i : Nat} (hi : i < maxSignatures) :
    c.powersGate.Holds (claim.read (bridge + i)) ∧ c.combinationGate.Holds (claim.read (bridge + i)) ∧
      (c.done.gate "num_checksig_opcodes" c.isSlot.cur).Holds (claim.read (bridge + i)) ∧
      c.foldGate.Holds (claim.read (bridge + i)) := by
  have hrow : bridge + i < claim.rows :=
    Nat.lt_of_lt_of_le (Nat.add_lt_add_left (Nat.lt_succ_of_lt hi) bridge) h.placed.bridge_le
  have hnext : bridge + i + 1 < claim.rows :=
    Nat.lt_of_lt_of_le (Nat.add_lt_add_left (Nat.succ_lt_succ hi) bridge) h.placed.bridge_le
  have hslot : claim.read (bridge + i) c.isSlot 0 = 1 := by
    rw [claim.read_zero _ hrow, h.placed.slot _ hrow, if_pos ⟨Nat.le_add_right .., Nat.add_lt_add_left hi bridge⟩]
  have hexact : c.done.Exact (claim.read (bridge + i)) := by
    obtain ⟨slot, -, hget⟩ := h.exists_slot hi
    refine IsZero.exact_of_inverse ?_
    have hchecks : claim.value c.checks (bridge + i) = .ofNat (count - i) := (h.shows hget).checks
    change claim.read (bridge + i) c.checksInverse 0 = (claim.read (bridge + i) c.checks 0)⁻¹
    rw [claim.read_zero _ hrow, claim.read_zero _ hrow, h.inverse_value hget, hchecks, Felt.inv_eq]
  have hstep := h.slotStep hformed hcount hi
  rw [← cur_read hrow, ← Nat.add_assoc, ← next_read hnext, slotStep_iff hslot hexact] at hstep
  refine ⟨hstep.1, hstep.2.1, (IsZero.holds_gate_iff ?_).mpr hexact, hstep.2.2⟩
  rw [Column.eval_cur, hslot]
  exact one_ne_zero

omit hformed in
/-- The gate of the row behind the slots. -/
theorem holds_end {row : Nat} (hrow : row < claim.rows) : c.endGate.Holds (claim.read row) := by
  simp only [endGate, Gate.holds_cons, Gate.holds_nil, and_true, Expr.eval_mul, Column.eval_cur, claim.read_zero _ hrow,
    h.placed.last row hrow]
  by_cases hlast : row = bridge + maxSignatures
  · obtain ⟨hchecks, hkeyAcc, -⟩ := h.last_value
    rw [hlast, hchecks, hkeyAcc, accumulators_unused hcount, Nat.sub_eq_zero_of_le hcount, mul_zero]
    exact ⟨mul_zero _, rfl⟩
  · rw [if_neg hlast, zero_mul, zero_mul]
    exact ⟨rfl, rfl⟩

/-- The gates of the bridge rows. -/
theorem holds_bridge {row : Nat} (hrow : row < claim.rows) : ∀ g ∈ c.gates, g.Holds (claim.read row) := by
  have hslots : c.powersGate.Holds (claim.read row) ∧ c.combinationGate.Holds (claim.read row) ∧
      (c.done.gate "num_checksig_opcodes" c.isSlot.cur).Holds (claim.read row) ∧ c.foldGate.Holds (claim.read row) := by
    by_cases hslot : bridge ≤ row ∧ row < bridge + maxSignatures
    · obtain ⟨i, rfl⟩ := Nat.exists_eq_add_of_le hslot.1
      exact h.holds_slot hformed hcount (Nat.lt_of_add_lt_add_left hslot.2)
    · refine holds_of_not_slot ?_
      rw [claim.read_zero c.isSlot hrow, h.placed.slot row hrow, if_neg hslot]
  obtain ⟨hpowers, hcombination, hdone, hfold⟩ := hslots
  simp only [Columns.gates, List.forall_mem_cons, List.not_mem_nil, false_implies, implies_true, and_true]
  exact ⟨hpowers, hcombination, hdone, hfold, h.holds_end hcount hrow⟩

omit hcount in
/-- The lookup of the parities. -/
theorem finds_parity (hsize : ParityTable.size ≤ claim.rows) {row : Nat} (hrow : row < claim.rows) :
    ∀ l ∈ c.lookups, claim.Finds l row := by
  intro l hl
  obtain rfl := List.mem_singleton.mp hl
  have hfinds : ∀ n pair, n < ParityTable.size → parityRow n = pair →
      claim.value c.isSlot row * claim.value c.form row = .ofByte pair.1 →
      claim.value c.isSlot row * claim.value c.y[0] row = .ofByte pair.2 →
      claim.Finds (c.parity.lookup c.isSlot.cur c.form.cur c.y[0].cur) row := by
    rintro n _ hn rfl hform hbyte
    have hinside := Nat.lt_of_lt_of_le hn hsize
    obtain ⟨hformRow, hbyteRow⟩ := h.placed.parity n hinside
    refine ⟨n, hinside, ?_⟩
    simp only [ParityTable.Columns.lookup, Lookup.inputs, Lookup.table, List.map_cons, List.map_nil, Expr.eval_mul,
      Column.eval_cur, claim.read_zero _ hrow, hform, hbyte, hformRow, hbyteRow]
  by_cases hslot : bridge ≤ row ∧ row < bridge + maxSignatures
  · obtain ⟨i, rfl⟩ := Nat.exists_eq_add_of_le hslot.1
    obtain ⟨slot, hmem, hget⟩ := h.exists_slot (Nat.lt_of_add_lt_add_left hslot.2)
    have hshows := h.shows hget
    have hone : claim.value c.isSlot (bridge + i) = 1 := by
      rw [h.placed.slot _ hrow, if_pos hslot]
    have hform : claim.value c.form (bridge + i) = .ofByte slot.form := hshows.form
    have hbyte := hshows.y 0 (by decide)
    rw [rowView, view, Vector.getElem_map] at hbyte
    have hlt := (slot.key.y.byteAt 0).toNat_lt
    rcases (hformed slot hmem).cases with heq | ⟨heq, -⟩
    · refine hfinds _ _ (Nat.lt_of_lt_of_le hlt (by decide)) (parityRow_full (slot.key.y.byteAt 0)) ?_ ?_
      · rw [hone, one_mul, hform, heq]
      · rw [hone, one_mul, hbyte]
    · have hinside : 256 + (slot.key.y.byteAt 0).toNat < ParityTable.size := Nat.add_lt_add_left (Nat.lt_succ_of_lt hlt) 256
      refine hfinds _ _ hinside (parityRow_short (slot.key.y.byteAt 0)) ?_ ?_
      · rw [hone, one_mul, hform, heq]
      · rw [hone, one_mul, hbyte]
  · have hzero : claim.value c.isSlot row = 0 := by
      rw [h.placed.slot row hrow, if_neg hslot]
    refine hfinds 512 _ (by decide) parityRow_last ?_ ?_
    · rw [hzero, zero_mul]
      rfl
    · rw [hzero, zero_mul]
      rfl

/-- All gates and lookups of a bridge over slots hold. -/
theorem accepted (hsize : ParityTable.size ≤ claim.rows) : c.Accepted claim verification range bridge where
  placed := h.placed
  gates g hg row hrow := by
    rcases List.mem_append.mp hg with hg | hg
    · exact h.holds_verification hrow g hg
    · rcases List.mem_append.mp hg with hg | hg
      · exact h.holds_range hrow g hg
      · exact h.holds_bridge hformed hcount hrow g hg
  lookups l hl row hrow := by
    rcases List.mem_append.mp hl with hl | hl
    · exact h.finds_range (Nat.le_trans (by decide) hsize) hrow l hl
    · exact h.finds_parity hformed hsize hrow l hl

end Filled

end Columns

end Bridge

end ScriptCircuit
