import Mathlib
import ScriptCircuit.Proofs.Execution.Completeness

/-!
# The gates refine the interpreter

The cells of a row and the counters of the next one are a state of the interpreter. On every row of the script the gates
leave it no other next state than the one of that row, so a region that a check accepts holds the run of the bytes in it,
whoever wrote them.
-/

namespace ScriptCircuit.Execution

open MatrixAux

namespace View

/-- The mode between a row and the next one, as the counters of the next one say. -/
def mode (cur next : View) : Mode :=
  if next.lengthLeft ≠ 0 then .length next.lengthLeft.toNat cur.dataLeft.toNat next.lengthWeight.toNat
  else if next.dataLeft ≠ 0 then .data next.dataLeft.toNat
  else .opcode

variable {cur next : View}

/-- While a length field is open its bytes are expected. -/
theorem mode_of_lengthLeft (h : next.lengthLeft ≠ 0) :
    cur.mode next = .length next.lengthLeft.toNat cur.dataLeft.toNat next.lengthWeight.toNat :=
  if_pos h

/-- While data is open its bytes are expected. -/
theorem mode_of_dataLeft (hlength : next.lengthLeft = 0) (hdata : next.dataLeft ≠ 0) :
    cur.mode next = .data next.dataLeft.toNat := by
  rw [mode, if_neg (not_not_intro hlength), if_pos hdata]

/-- An opcode is expected exactly when nothing is open. -/
theorem mode_eq_opcode : cur.mode next = .opcode ↔ next.Opens := by
  unfold mode Opens
  by_cases hlength : next.lengthLeft = 0
  · by_cases hdata : next.dataLeft = 0
    · simp [hlength, hdata]
    · simp [hlength, hdata]
  · simp [hlength]

end View

namespace Rows

/-- The state behind a row. -/
def stateAt (V : Nat → View) (i : Nat) : State where
  challenge := (V 0).challenge
  stack := (V i).stack
  mode := (V i).mode (V (i + 1))
  keyAcc := (V i).keyAcc
  checks := (V i).checks.toNat

/-- The state behind a row that leaves the accumulators. -/
theorem stateAt_succ {V : Nat → View} {i : Nat} {stack : Stack} {mode : Mode}
    (hacc : (V (i + 1)).keyAcc = (V i).keyAcc ∧ (V (i + 1)).checks = (V i).checks) (hstack : (V (i + 1)).stack = stack)
    (hmode : (V (i + 1)).mode (V (i + 2)) = mode) : stateAt V (i + 1) = { stateAt V i with stack, mode } := by
  simp only [stateAt, hacc, hstack, hmode]

variable {V : Nat → View} (h : Rows V)
include h

/-! ## One step -/

/-- On the row of a data byte. -/
theorem step_data {i : Nat} (hi : i < length V) (hrow : (V (i + 1)).AtData) :
    (stateAt V i).Step (byteOf (V (i + 1)).opcode) (length V - (i + 1)) (stateAt V (i + 1)) := by
  obtain ⟨hstep, -⟩ := h.active hi
  obtain ⟨hstack, hdata, hlength⟩ := hstep.dataByte hrow
  have hmode : (stateAt V i).mode = .data (V (i + 1)).dataLeft.toNat := View.mode_of_dataLeft hrow.2.2 hrow.2.1
  have hcount : (V (i + 2)).dataLeft.toNat + 1 = (V (i + 1)).dataLeft.toNat := by
    rw [← hdata, Felt.toNat_add_one]
    rw [hdata]
    exact hrow.2.1
  have hnext : (V (i + 1)).mode (V (i + 2)) =
      if (V (i + 1)).dataLeft.toNat = 1 then .opcode else .data ((V (i + 1)).dataLeft.toNat - 1) := by
    by_cases hzero : (V (i + 2)).dataLeft = 0
    · have hnil : (V (i + 2)).dataLeft.toNat = 0 := congrArg Felt.toNat hzero
      rw [if_pos (by omega), View.mode_eq_opcode]
      exact ⟨hzero, hlength⟩
    · have hne : (V (i + 2)).dataLeft.toNat ≠ 0 := fun hnil => hzero (Felt.ext_toNat hnil)
      rw [if_neg (by omega), View.mode_of_dataLeft hlength hzero, ← hcount, Nat.add_sub_cancel]
  have hchallenge : (V (i + 1)).challenge = (V 0).challenge :=
    h.challenge (Nat.le_succ_of_le (h.lt_maxScriptSize hi))
  rw [h.opcode_eq (h.lt_maxScriptSize hi), hchallenge] at hstack
  rw [stateAt_succ (hstep.accumulators fun hop => hrow.2.1 hop.1.2.1) hstack hnext]
  exact .data hmode

/-- The length read so far is the number that the interpreter has read. -/
theorem dataLeft_of_atLength {i : Nat} (hi : i < length V) (hrow : (V (i + 1)).AtLength) :
    (V (i + 1)).dataLeft =
      ((V i).dataLeft.toNat + (byteOf (V (i + 1)).opcode).toNat * (V (i + 1)).lengthWeight.toNat : Nat) := by
  rw [((h.active hi).1.lengthByte hrow).1, h.opcode_eq (h.lt_maxScriptSize hi), byteOf_ofByte, Felt.ofByte_eq, Nat.cast_add,
    Nat.cast_mul, Felt.natCast_toNat, Felt.natCast_toNat]
  exact add_comm _ _

/-- The numbers on the row of a byte of a length field: the weights do not wrap, the length read so far is the number of the
interpreter, and one byte less of the field is to come. -/
theorem length_numbers {i : Nat} (hi : i < length V) (hwithin : (stateAt V i).Within i (length V - i))
    (hrow : (V (i + 1)).AtLength) :
    (V (i + 1)).lengthWeight.toNat * 256 ≤ 256 ^ 4 ∧ (V (i + 1)).dataLeft.toNat < 256 ^ 4 ∧
      (V (i + 1)).dataLeft.toNat =
        (V i).dataLeft.toNat + (byteOf (V (i + 1)).opcode).toNat * (V (i + 1)).lengthWeight.toNat ∧
      (V (i + 2)).lengthLeft.toNat + 1 = (V (i + 1)).lengthLeft.toNat := by
  obtain ⟨-, hleft, -⟩ := (h.active hi).1.lengthByte hrow
  have hbounded := hwithin.mode
  rw [show (stateAt V i).mode = _ from View.mode_of_lengthLeft hrow.2] at hbounded
  obtain ⟨hpos, -, hbound, hdecoded⟩ := hbounded
  have hpow : (V (i + 1)).lengthWeight.toNat * 256 ≤ 256 ^ 4 :=
    Nat.le_trans (Nat.mul_le_mul_left _ (Nat.le_self_pow (Nat.ne_of_gt hpos) 256)) hbound
  have hlt := Nat.lt_of_lt_of_le (RunAux.decoded_lt (byteOf (V (i + 1)).opcode) hdecoded) hpow
  have hvalue : (V (i + 1)).dataLeft.toNat =
      (V i).dataLeft.toNat + (byteOf (V (i + 1)).opcode).toNat * (V (i + 1)).lengthWeight.toNat := by
    rw [h.dataLeft_of_atLength hi hrow, Felt.toNat_natCast_of_lt (Nat.lt_trans hlt (by decide))]
  refine ⟨hpow, hvalue ▸ hlt, hvalue, ?_⟩
  rw [← hleft, Felt.toNat_add_one]
  rw [hleft]
  exact hrow.2

/-- On the row of the last byte of a length field. -/
theorem step_lastLength {i : Nat} (hi : i < length V) (hwithin : (stateAt V i).Within i (length V - i))
    (hrow : (V (i + 1)).AtLength) (hlast : (V (i + 1)).lengthLeft = 1) :
    (stateAt V i).Step (byteOf (V (i + 1)).opcode) (length V - (i + 1)) (stateAt V (i + 1)) := by
  obtain ⟨hstep, -⟩ := h.active hi
  obtain ⟨-, hleft, -, hopen, hstack⟩ := hstep.lengthByte hrow
  obtain ⟨-, hlt, hvalue, -⟩ := h.length_numbers hi hwithin hrow
  obtain ⟨hdata, hne⟩ := hopen hlast
  have hmode : (stateAt V i).mode = .length (V (i + 1)).lengthLeft.toNat (V i).dataLeft.toNat
      (V (i + 1)).lengthWeight.toNat := View.mode_of_lengthLeft hrow.2
  rw [hlast] at hmode hleft
  have hlength : (V (i + 2)).lengthLeft = 0 := add_eq_right.mp hleft
  have hnext : (V (i + 1)).mode (V (i + 2)) = .data (V (i + 1)).dataLeft.toNat := by
    rw [View.mode_of_dataLeft hlength (hdata ▸ hne), hdata]
  have hnonzero : (V (i + 1)).dataLeft.toNat ≠ 0 := fun hzero => hne (Felt.ext_toNat hzero)
  have hfits : (V (i + 1)).dataLeft.toNat ≤ length V - (i + 1) :=
    h.data_le hi (Nat.lt_trans hlt (by decide)) hlength
      (hdata.trans (Felt.natCast_toNat _).symm)
  rw [stateAt_succ (hstep.accumulators fun hop => hrow.2 hop.1.2.2) hstack hnext]
  rw [hvalue] at hnonzero hfits ⊢
  exact .lastLength hmode hnonzero hfits

/-- On the row of a byte of a length field. -/
theorem step_length {i : Nat} (hi : i < length V) (hwithin : (stateAt V i).Within i (length V - i))
    (hrow : (V (i + 1)).AtLength) :
    (stateAt V i).Step (byteOf (V (i + 1)).opcode) (length V - (i + 1)) (stateAt V (i + 1)) := by
  by_cases hlast : (V (i + 1)).lengthLeft = 1
  · exact h.step_lastLength hi hwithin hrow hlast
  · obtain ⟨hstep, -⟩ := h.active hi
    obtain ⟨-, hleft, hweight, -, hstack⟩ := hstep.lengthByte hrow
    obtain ⟨hpow, -, hvalue, hcount⟩ := h.length_numbers hi hwithin hrow
    have hne : (V (i + 2)).lengthLeft ≠ 0 := by
      intro hzero
      rw [hzero, zero_add] at hleft
      exact hlast hleft.symm
    have hweight' : (V (i + 2)).lengthWeight.toNat = (V (i + 1)).lengthWeight.toNat * 256 := by
      have hcast : Felt.ofNat 256 * (V (i + 1)).lengthWeight = ((V (i + 1)).lengthWeight.toNat * 256 : Nat) := by
        rw [Nat.cast_mul, Felt.natCast_toNat, mul_comm]
        rfl
      rw [hweight hlast, hcast, Felt.toNat_natCast_of_lt (Nat.lt_of_le_of_lt hpow (by decide))]
    have hnext : (V (i + 1)).mode (V (i + 2)) = .length ((V (i + 1)).lengthLeft.toNat - 1) ((V i).dataLeft.toNat +
        (byteOf (V (i + 1)).opcode).toNat * (V (i + 1)).lengthWeight.toNat) ((V (i + 1)).lengthWeight.toNat * 256) := by
      rw [View.mode_of_lengthLeft hne, hweight', hvalue, ← hcount, Nat.add_sub_cancel]
    rw [stateAt_succ (hstep.accumulators fun hop => hrow.2 hop.1.2.2) hstack hnext]
    exact .length (View.mode_of_lengthLeft hrow.2) fun hone => hlast (Felt.ext_toNat hone)

/-! ### Opcodes -/

section

variable {i : Nat} {byte : UInt8} (hi : i < length V) (hrow : (V (i + 1)).AtOpcode) (hbyte : (V (i + 1)).Classified byte)

omit h in
include hrow hbyte in
/-- The gate of the class of an opcode is switched on. -/
theorem indicator_ne_zero {k : OpcodeClass} (hk : Opcode.class? byte = some k) :
    (V (i + 1)).AtOpcode ∧ (V (i + 1)).indicator k ≠ 0 := by
  rw [hbyte.indicator, if_pos hk]
  exact ⟨hrow, one_ne_zero⟩

include hi hbyte in
/-- Every opcode but the signature check leaves the accumulators. -/
theorem accumulators_eq (hother : Opcode.class? byte ≠ some .checkSignature) :
    (V (i + 1)).keyAcc = (V i).keyAcc ∧ (V (i + 1)).checks = (V i).checks := by
  refine (h.active hi).1.accumulators fun hop => ?_
  rw [hbyte.indicator, if_neg hother] at hop
  exact zero_ne_one hop.2

omit h in
include hrow in
theorem mode_eq_opcode : (stateAt V i).mode = .opcode :=
  View.mode_eq_opcode.mpr hrow.2

omit h in
include hrow in
/-- Between two opcodes the mode is the same. -/
theorem mode_of_opens (hopens : (V (i + 2)).Opens) : (V (i + 1)).mode (V (i + 2)) = (stateAt V i).mode :=
  (View.mode_eq_opcode.mpr hopens).trans (mode_eq_opcode hrow).symm

include hi hrow hbyte

/-- The row of a direct push is a step of the run. -/
theorem step_pushBytes (hclass : Opcode.class? byte = some .pushBytes) :
    (stateAt V i).Step byte (length V - (i + 1)) (stateAt V (i + 1)) := by
  obtain ⟨hstack, hdata, hlength⟩ := (h.active hi).1.pushBytes (indicator_ne_zero hrow hbyte hclass)
  have hlt : byte.toNat < 18446744069414584321 := Nat.lt_trans byte.toNat_lt (by decide)
  have hne : byte.toNat ≠ 0 := by
    intro hzero
    obtain rfl : byte = 0 := UInt8.toNat_inj.mp hzero
    exact absurd hclass (by decide)
  rw [hbyte.opcode, Felt.ofByte_eq] at hdata
  have hnext : (V (i + 1)).mode (V (i + 2)) = .data byte.toNat := by
    have hne' : (V (i + 2)).dataLeft ≠ 0 := by
      rw [hdata, Ne, Felt.natCast_eq_zero hlt]
      exact hne
    rw [View.mode_of_dataLeft hlength hne', hdata, Felt.toNat_natCast_of_lt hlt]
  rw [stateAt_succ (h.accumulators_eq hi hbyte (by simp [hclass])) hstack hnext]
  exact .pushBytes (mode_eq_opcode hrow) hclass (h.data_le hi hlt hlength hdata)

/-- The row of a push with a length field is a step of the run. -/
theorem step_pushData {k : OpcodeClass} {width : Nat} (hclass : Opcode.class? byte = some k)
    (hwidth : k.lengthWidth? = some width) : (stateAt V i).Step byte (length V - (i + 1)) (stateAt V (i + 1)) := by
  obtain ⟨hstack, hlength, hweight⟩ := (h.active hi).1.pushData k width hwidth (indicator_ne_zero hrow hbyte hclass)
  obtain ⟨hpos, hle⟩ := RunAux.lengthWidth_le hwidth
  have hlt : width < 18446744069414584321 := Nat.lt_of_le_of_lt hle (by decide)
  have hnext : (V (i + 1)).mode (V (i + 2)) = .length width 0 1 := by
    have hne : (V (i + 2)).lengthLeft ≠ 0 := by
      rw [hlength, Felt.ofNat_eq, Ne, Felt.natCast_eq_zero hlt]
      exact Nat.ne_of_gt hpos
    rw [View.mode_of_lengthLeft hne, hlength, hweight, hrow.2.1, Felt.ofNat_eq, Felt.toNat_natCast_of_lt hlt]
    rfl
  have hother : Opcode.class? byte ≠ some .checkSignature := by
    rw [hclass]
    rintro ⟨⟩
    cases hwidth
  rw [stateAt_succ (h.accumulators_eq hi hbyte hother) hstack hnext]
  exact .pushData (mode_eq_opcode hrow) hclass hwidth (h.lengthField_le hi hlt hlength)

/-- The row of a signature check is a step of the run. -/
theorem step_checkSignature (hclass : Opcode.class? byte = some .checkSignature) (hread : (V i).checks.toNat ≤ i) :
    (stateAt V i).Step byte (length V - (i + 1)) (stateAt V (i + 1)) := by
  obtain ⟨hflag, hstack, hkey, hchecks, hopens⟩ :=
    (h.active hi).1.checkSignature (indicator_ne_zero hrow hbyte hclass)
  have hnext := mode_of_opens hrow hopens
  rcases hflag with hzero | hone
  · rw [hzero] at hstack hkey hchecks
    rw [zero_mul, add_zero] at hkey
    rw [add_zero] at hchecks
    rw [stateAt_succ ⟨hkey, hchecks⟩ hstack hnext]
    exact .invalid (mode_eq_opcode hrow) hclass hzero
  · have hmax : i < 520 := h.lt_maxScriptSize hi
    have hcount : (V (i + 1)).checks.toNat = (V i).checks.toNat + 1 := by
      rw [hchecks, hone, Felt.toNat_add_one]
      rw [← Felt.natCast_toNat (V i).checks, ← Nat.cast_succ, Ne, Felt.natCast_eq_zero (by omega)]
      exact Nat.succ_ne_zero _
    have hfold : (V (i + 1)).keyAcc = (V i).keyAcc * (V 0).challenge + (V i).stack.top := by
      rw [hkey, hone, h.challenge (Nat.le_succ_of_le (h.lt_maxScriptSize hi))]
      ring
    have hstate : stateAt V (i + 1) = { stateAt V i with
        stack := (stateAt V i).stack.pop.pop.push 1
        keyAcc := (stateAt V i).keyAcc * (stateAt V i).challenge + (stateAt V i).stack.top
        checks := (stateAt V i).checks + 1 } := by
      simp only [stateAt, hstack, hone, hnext, hcount, hfold]
    rw [hstate]
    exact .valid (mode_eq_opcode hrow) hclass hone

end

/-- On the row of an enabled opcode. -/
theorem step_opcode {i : Nat} (hi : i < length V) (hrow : (V (i + 1)).AtOpcode) (henabled : (V (i + 1)).enabled = 1)
    (hread : (V i).checks.toNat ≤ i) :
    (stateAt V i).Step (byteOf (V (i + 1)).opcode) (length V - (i + 1)) (stateAt V (i + 1)) := by
  obtain ⟨hstep, -⟩ := h.active hi
  obtain ⟨byte, hbyte⟩ : ∃ byte, (V (i + 1)).Classified byte := by
    refine (h.table i (h.lt_maxScriptSize hi)).resolve_right fun hzero => ?_
    rw [hzero.2] at henabled
    exact zero_ne_one henabled
  rw [hbyte.opcode, byteOf_ofByte]
  have hmode := mode_eq_opcode hrow
  cases hclass : Opcode.class? byte with
  | none =>
    -- An enabled opcode without a class is the no-operation.
    have hnone : ∀ k, (V (i + 1)).indicator k = 0 := by
      intro k
      rw [hbyte.indicator, hclass]
      rfl
    have hnop : (V (i + 1)).nop ≠ 0 := by
      simp [View.nop, OpcodeClass.all, henabled, hnone]
    obtain ⟨hstack, hopens⟩ := hstep.nop ⟨hrow, hnop⟩
    rw [stateAt_succ (h.accumulators_eq hi hbyte (by simp [hclass])) hstack (mode_of_opens hrow hopens)]
    exact .unclassified hmode hclass
  | some k =>
    cases k with
    | pushEmpty =>
      obtain ⟨hstack, hopens⟩ := hstep.pushEmpty (indicator_ne_zero hrow hbyte hclass)
      rw [stateAt_succ (h.accumulators_eq hi hbyte (by simp [hclass])) hstack (mode_of_opens hrow hopens)]
      exact .pushEmpty hmode hclass
    | pushNumber =>
      obtain ⟨hstack, hopens⟩ := hstep.pushNumber (indicator_ne_zero hrow hbyte hclass)
      rw [hbyte.opcode, ← ofByte_sub_reserved hclass] at hstack
      rw [stateAt_succ (h.accumulators_eq hi hbyte (by simp [hclass])) hstack (mode_of_opens hrow hopens)]
      exact .pushNumber hmode hclass
    | pushBytes => exact h.step_pushBytes hi hrow hbyte hclass
    | pushData1 | pushData2 | pushData4 => exact h.step_pushData hi hrow hbyte hclass rfl
    | checkSignature => exact h.step_checkSignature hi hrow hbyte hclass hread

/-! ## The run -/

/-- The state of the first row is the one a run starts with. -/
theorem stateAt_zero : stateAt V 0 = .initial (V 0).challenge (V 0).stack := by
  rw [stateAt, View.mode_eq_opcode.mpr h.first.opens, h.first.keyAcc, h.first.checks]
  rfl

section

variable (henabled : ∀ i, i < length V → (V (i + 1)).AtOpcode → (V (i + 1)).enabled = 1)
include henabled

/-- From every row of the script the interpreter steps to the state of the next row. -/
theorem step {i : Nat} (hi : i < length V) (hwithin : (stateAt V i).Within i (length V - i)) :
    (stateAt V i).next (byteOf (V (i + 1)).opcode) (length V - (i + 1)) = .ok (stateAt V (i + 1)) := by
  have hactive := (h.active hi).2
  rw [State.next_eq_ok]
  by_cases hlength : (V (i + 1)).lengthLeft = 0
  · by_cases hdata : (V (i + 1)).dataLeft = 0
    · have hrow : (V (i + 1)).AtOpcode := ⟨hactive, hdata, hlength⟩
      exact h.step_opcode hi hrow (henabled i hi hrow) hwithin.checks
    · exact h.step_data hi ⟨hactive, hdata, hlength⟩
  · exact h.step_length hi hwithin ⟨hactive, hlength⟩

/-- The counters of the states stay within what has been read and what follows. -/
theorem within {i : Nat} (hi : i ≤ length V) : (stateAt V i).Within i (length V - i) := by
  induction i with
  | zero =>
    rw [h.stateAt_zero]
    exact ⟨Nat.le_refl _, trivial⟩
  | succ i ih =>
    have hwithin := ih (Nat.le_of_succ_le hi)
    have hnext := h.step henabled hi hwithin
    rw [← Nat.succ_sub_succ, Nat.succ_sub hi] at hwithin
    exact hwithin.next hnext

/-- The states of the rows are a run of the script in them. -/
theorem steps : State.Steps (script V) (stateAt V) := by
  intro i hi
  rw [length_script] at hi
  rw [getElem_script, length_script]
  exact h.step henabled hi (h.within henabled (Nat.le_of_lt hi))

end

/-! ## The rows of the trace -/

/-- Behind the script every row repeats the state. -/
theorem frozen {i : Nat} (hi : length V ≤ i) (hlast : i ≤ maxScriptSize + 1) :
    (V i).stack = (V (length V)).stack ∧ (V i).keyAcc = (V (length V)).keyAcc ∧ (V i).checks = (V (length V)).checks := by
  induction i, hi using Nat.le_induction with
  | base => exact ⟨rfl, rfl, rfl⟩
  | succ i hi ih =>
    obtain ⟨hstack, hkey, hchecks⟩ := ih (Nat.le_of_succ_le hlast)
    rcases Nat.lt_or_eq_of_le (Nat.le_of_succ_le_succ hlast) with hlt | rfl
    · have hzero : (V (i + 1)).scriptLeft = 0 := by
        by_contra hne
        exact Nat.not_lt.mpr hi ((h.scriptLeft_ne_zero hlt).mp hne)
      obtain ⟨hstack', -, -, -, hkey', hchecks'⟩ := (h.byte i hlt).frozen hzero
      exact ⟨hstack'.trans hstack, hkey'.trans hkey, hchecks'.trans hchecks⟩
    · exact ⟨h.last.stack.trans hstack, h.last.keyAcc.trans hkey, h.last.checks.trans hchecks⟩

end Rows

/-- The cells of a view that hold what a row of a trace says of the state and of what is still to be read. -/
structure View.Matches (v : View) (row : Row) : Prop where
  stack : v.stack = row.stack
  keyAcc : v.keyAcc = row.keyAcc
  checks : v.checks = .ofNat row.checks
  scriptLeft : v.scriptLeft = .ofNat row.scriptLeft
  dataLeft : v.dataLeft = .ofNat row.dataLeft
  lengthLeft : v.lengthLeft = .ofNat row.lengthLeft

namespace Rows

variable {V : Nat → View} (h : Rows V)
include h

/-- The counters of a row are those of the mode in which its byte was read. -/
theorem counters {i : Nat} (hi : i < length V) (after : State) :
    (V (i + 1)).dataLeft = .ofNat (State.row (stateAt V i) after (byteOf (V (i + 1)).opcode)).dataLeft ∧
      (V (i + 1)).lengthLeft = .ofNat (State.row (stateAt V i) after (byteOf (V (i + 1)).opcode)).lengthLeft := by
  by_cases hlength : (V (i + 1)).lengthLeft = 0
  · by_cases hdata : (V (i + 1)).dataLeft = 0
    · have hmode : (stateAt V i).mode = .opcode := View.mode_eq_opcode.mpr ⟨hdata, hlength⟩
      rw [State.row, hmode, hdata, hlength]
      exact ⟨rfl, rfl⟩
    · have hmode : (stateAt V i).mode = .data (V (i + 1)).dataLeft.toNat := View.mode_of_dataLeft hlength hdata
      rw [State.row, hmode, hlength]
      exact ⟨(Felt.natCast_toNat _).symm, rfl⟩
  · have hmode : (stateAt V i).mode = .length (V (i + 1)).lengthLeft.toNat (V i).dataLeft.toNat
        (V (i + 1)).lengthWeight.toNat := View.mode_of_lengthLeft hlength
    rw [State.row, hmode]
    exact ⟨h.dataLeft_of_atLength hi ⟨(h.active hi).2, hlength⟩, (Felt.natCast_toNat _).symm⟩

/-- Every row matches the row of the trace at its offset. -/
theorem matches_rowAt {i : Nat} (hi : i < traceRows) :
    (V i).Matches (Trace.rowAt (V 0).challenge (script V) (stateAt V) i) := by
  have hchecks : ∀ i, (V i).checks = .ofNat (V i).checks.toNat := fun i => (Felt.natCast_toNat _).symm
  change i < maxScriptSize + 2 at hi
  rw [Trace.rowAt]
  rcases i with _ | i
  · rw [if_pos rfl]
    refine ⟨rfl, rfl, hchecks 0, ?_, h.first.dataLeft, h.first.lengthLeft⟩
    change _ = Felt.ofNat (script V).length
    rw [length_script, length, Felt.ofNat_eq, Felt.natCast_toNat]
  · rw [if_neg (Nat.succ_ne_zero i), Nat.add_sub_cancel]
    have hleft : (V (i + 1)).scriptLeft = .ofNat (length V - i) := by
      rcases Nat.lt_or_eq_of_le (Nat.le_of_lt_succ (Nat.lt_of_succ_lt_succ hi)) with hlt | rfl
      · exact h.countdown (Nat.le_of_lt hlt)
      · exact h.countdown (Nat.le_refl _)
    by_cases hbyte : i < (script V).length
    · rw [dif_pos hbyte, State.rowOfByte, getElem_script]
      have hbyte' : i < length V := by
        rw [← length_script V]
        exact hbyte
      obtain ⟨hdata, hlength⟩ := h.counters hbyte' (stateAt V (i + 1))
      rw [length_script]
      exact ⟨rfl, rfl, hchecks (i + 1), hleft, hdata, hlength⟩
    · rw [dif_neg hbyte]
      rw [length_script] at hbyte ⊢
      obtain ⟨hstack, hkey, hcount⟩ := h.frozen (i := i + 1) (by omega) (Nat.le_of_lt_succ hi)
      have hnil : length V - i = 0 := by omega
      rw [hnil] at hleft
      have hnone : (V (i + 1)).dataLeft = 0 ∧ (V (i + 1)).lengthLeft = 0 := by
        rcases Nat.lt_or_eq_of_le (Nat.le_of_lt_succ (Nat.lt_of_succ_lt_succ hi)) with hlt | rfl
        · obtain ⟨-, -, hdata, hlength, -⟩ := (h.byte i hlt).frozen hleft
          exact ⟨hdata, hlength⟩
        · exact ⟨h.last.dataLeft, h.last.lengthLeft⟩
      exact ⟨hstack, hkey, hcount.trans (hchecks _), hleft, hnone.1, hnone.2⟩

section

variable (henabled : ∀ i, i < length V → (V (i + 1)).AtOpcode → (V (i + 1)).enabled = 1)
include henabled

/-- The rows of the trace at which an opcode is read read an enabled one. -/
theorem enabled_rowAt {i : Nat} (hmode : (Trace.rowAt (V 0).challenge (script V) (stateAt V) i).mode = .opcode) :
    Opcode.enabled (Trace.rowAt (V 0).challenge (script V) (stateAt V) i).opcode = true := by
  rw [Trace.rowAt] at hmode ⊢
  rcases i with _ | i
  · rfl
  · rw [if_neg (Nat.succ_ne_zero i), Nat.add_sub_cancel] at hmode ⊢
    by_cases hbyte : i < (script V).length
    · rw [dif_pos hbyte] at hmode ⊢
      change Opcode.enabled (script V)[i] = true
      rw [getElem_script]
      rw [length_script] at hbyte
      have hrow : (V (i + 1)).AtOpcode := ⟨(h.active hbyte).2, View.mode_eq_opcode.mp hmode⟩
      have hone := henabled i hbyte hrow
      rcases h.table i (h.lt_maxScriptSize hbyte) with ⟨byte, hclassified⟩ | ⟨-, hzero⟩
      · rw [hclassified.opcode, byteOf_ofByte]
        by_contra hoff
        rw [hclassified.enabled, if_neg hoff] at hone
        exact zero_ne_one hone
      · rw [hzero] at hone
        exact absurd hone zero_ne_one
    · rw [dif_neg hbyte]
      change Opcode.enabled (if i + 1 = maxScriptSize + 1 then 0 else Opcode.nop) = true
      split <;> rfl

/-- The trace of the script in the rows succeeds, and its rows are those of the run. -/
theorem exists_trace : ∃ t, Trace.ofStack (script V) (V 0).challenge (V 0).stack = .ok t ∧ t.rows.length = traceRows ∧
    ∀ i, i < traceRows → t.rows[i]? = some (Trace.rowAt (V 0).challenge (script V) (stateAt V) i) := by
  have hlength : (script V).length ≤ maxScriptSize := by
    rw [length_script]
    exact h.length_le
  have hmode : (stateAt V (script V).length).mode = .opcode := by
    rw [length_script]
    exact View.mode_eq_opcode.mpr h.opens_behind
  obtain ⟨rows, hrows⟩ : ∃ rows : List Row, rows.length = traceRows ∧
      ∀ i, i < traceRows → rows[i]? = some (Trace.rowAt (V 0).challenge (script V) (stateAt V) i) := by
    refine ⟨(List.range traceRows).map (Trace.rowAt (V 0).challenge (script V) (stateAt V)), ?_, fun i hi => ?_⟩
    · rw [List.length_map, List.length_range]
    · rw [List.getElem?_map, List.getElem?_range hi, Option.map_some]
  exact ⟨⟨script V, (V 0).challenge, Combination.hornerReversed (V 0).challenge (script V), rows⟩,
    Trace.ofStack_eq_ok.mpr ⟨hlength, stateAt V, h.stateAt_zero, h.steps henabled, hmode, ⟨rfl, rfl, rfl⟩, hrows⟩, hrows⟩

/-- The rows are those of a trace of the script in them, all of whose opcodes are enabled. -/
theorem exists_run (htop : (V (maxScriptSize + 1)).TopTrue) : ∃ (script : List UInt8) (run : Trace),
    script.length = length V ∧
    (∀ i byte, script[i]? = some byte → (V (i + 1)).opcode = .ofByte byte) ∧
    Trace.ofStack script (V 0).challenge (V 0).stack = .ok run ∧
    run.rows.length = traceRows ∧
    (∀ i row, run.rows[i]? = some row → (V i).Matches row) ∧
    (∀ row ∈ run.rows, row.mode = .opcode → Opcode.enabled row.opcode = true) ∧
    run.lastRow.stack.top ≠ 0 ∧ run.lastRow.stack.top ≠ negativeZero := by
  obtain ⟨run, hrun, hrows, hrow⟩ := h.exists_trace henabled
  have hrow' : ∀ i row, run.rows[i]? = some row → i < traceRows ∧
      row = Trace.rowAt (V 0).challenge (script V) (stateAt V) i := by
    intro i row hi
    have hlt : i < traceRows := by
      rw [← hrows]
      exact (List.getElem?_eq_some_iff.mp hi).1
    rw [hrow i hlt] at hi
    exact ⟨hlt, (Option.some.inj hi).symm⟩
  have hlast := Trace.lastRow_eq hrows (hrow _ (Nat.lt_succ_self (maxScriptSize + 1)))
  refine ⟨script V, run, length_script V, ?_, hrun, hrows, ?_, ?_, ?_⟩
  · intro i byte hbyte
    obtain ⟨hi, rfl⟩ := List.getElem?_eq_some_iff.mp hbyte
    rw [getElem_script]
    rw [length_script] at hi
    exact h.opcode_eq (h.lt_maxScriptSize hi)
  · intro i row hi
    obtain ⟨hlt, rfl⟩ := hrow' i row hi
    exact h.matches_rowAt hlt
  · intro row hmem hmode
    obtain ⟨i, hi⟩ := List.mem_iff_getElem?.mp hmem
    obtain ⟨-, rfl⟩ := hrow' i row hi
    exact h.enabled_rowAt henabled hmode
  · rw [hlast, ← (h.matches_rowAt (Nat.lt_succ_self _)).stack]
    exact htop

end

end Rows

/-- Whatever is written into the advice columns of a synthesized region, a check that accepts it with the public values
`L`, `c` and `r` has seen the run of a script of `L` bytes under the challenge `r`: the bytes are the opcode cells, the
initial stack is that of the first row, every row matches the row of the trace, all executed opcodes are enabled and the
final item on top is true. -/
theorem region_holds_run {trace : Trace} {before : List (String × Nat)} {height : Nat} {w : Witness} {cells : Cells}
    {l : Layouter} (hbuilt : (synthesis system.2 system.1 trace before height).run ∅ = .ok ((w, cells), l))
    {advice : Array (Vector Felt w.matrix.rows)} {L c r : Felt} {claim : Claim}
    (hmake : Claim.make system.2 (w.withAdvice advice) [[L, c, r]] = .ok claim) (hok : claim.failures = .ok []) :
    L.toNat ≤ maxScriptSize ∧ ∃ (script : List UInt8) (run : Trace),
      script.length = L.toNat ∧
      (∀ i byte, script[i]? = some byte →
        (system.1.rowView claim (startRow before + (i + 1))).opcode = .ofByte byte) ∧
      Trace.ofStack script r (system.1.rowView claim (startRow before)).stack = .ok run ∧
      run.rows.length = traceRows ∧
      (∀ i row, run.rows[i]? = some row → (system.1.rowView claim (startRow before + i)).Matches row) ∧
      (∀ row ∈ run.rows, row.mode = .opcode → Opcode.enabled row.opcode = true) ∧
      run.lastRow.stack.top ≠ 0 ∧ run.lastRow.stack.top ≠ negativeZero := by
  have hover := overwritten_of_built hbuilt hmake
  have haccepted := hover.accepted hok
  have hrows := haccepted.rows
  obtain ⟨rfl, -, rfl⟩ := hover.publicValues hok
  exact ⟨hrows.length_le, hrows.exists_run (fun i hi => haccepted.enabled (hrows.lt_maxScriptSize hi)) haccepted.topTrue⟩

/-- An accepted script of one byte that pushes a number. -/
theorem region_holds_run_pushNumber :
    ∃ trace w cells l claim, (synthesis system.2 system.1 trace [] traceRows).run ∅ = .ok ((w, cells), l) ∧
      Claim.make system.2 (w.withAdvice w.matrix.advice) [[1, 0x51, 7]] = .ok claim ∧ claim.failures = .ok [] ∧
      ∃ script run, script.length = 1 ∧ Trace.ofStack script 7 (system.1.rowView claim 0).stack = .ok run ∧
        run.lastRow.stack.top ≠ 0 := by
  obtain ⟨trace, w, cells, l, claim, hbuilt, hmake, hok⟩ := exists_accepted_pushNumber
  obtain ⟨-, script, run, hlength, -, hruns, -, -, -, htop, -⟩ := region_holds_run hbuilt hmake hok
  exact ⟨trace, w, cells, l, claim, hbuilt, hmake, hok, script, run, hlength, hruns, htop⟩

end ScriptCircuit.Execution
