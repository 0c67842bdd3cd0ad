import Mathlib
import ScriptCircuit.Proofs.Execution.Assignment
import ScriptCircuit.Proofs.Execution.Rows

/-!
# The rows of a run satisfy the gates

The views of a region that shows the trace of a script, row by row: what the state before a byte says of the counters in its
row, and from that every gate and the lookup, those of the enabled opcodes and of the final item apart.
-/

namespace ScriptCircuit.Execution

open Combination RunAux

/-- Views that show the trace of a run. -/
structure Honest (V : Nat → View) (r : Felt) (script : List UInt8) (states : Nat → State) : Prop where
  fit : script.length ≤ maxScriptSize
  zero : states 0 = .initial r (states 0).stack
  steps : State.Steps script states
  final : (states script.length).mode = .opcode
  shows : ∀ i, i < traceRows → (V i).Shows r (Trace.rowAt r script states i)
  classified : ∀ i, i < maxScriptSize → (V (i + 1)).Classified (Trace.rowAt r script states (i + 1)).opcode

namespace HonestAux

/-- Every opcode of a class is enabled. -/
theorem enabled_of_class {byte : UInt8} {k : OpcodeClass} (h : Opcode.class? byte = some k) :
    Opcode.enabled byte = true := by
  have hall : ∀ n, n < 256 → Opcode.class? (.ofNat n) ≠ none → Opcode.enabled (.ofNat n) = true := by decide +kernel
  have hbyte := hall byte.toNat byte.toNat_lt
  rw [UInt8.ofNat_toNat] at hbyte
  exact hbyte (by rw [h]; nofun)

/-- A byte of a class is no no-operation. -/
theorem nop_eq_zero {v : View} {byte : UInt8} {k : OpcodeClass} (hv : v.Classified byte)
    (h : Opcode.class? byte = some k) : v.nop = 0 := by
  rw [View.nop, hv.enabled, if_pos (enabled_of_class h)]
  simp only [OpcodeClass.all, List.map_cons, List.map_nil, List.sum_cons, List.sum_nil, hv.indicator, h]
  cases k <;> simp

end HonestAux

open HonestAux

namespace Honest

variable {V : Nat → View} {r : Felt} {script : List UInt8} {states : Nat → State} (h : Honest V r script states)
include h

/-! ## The state in a row -/

/-- The state behind `i` bytes lies within its bounds. -/
theorem within {i : Nat} (hi : i ≤ script.length) : (states i).Within i (script.length - i) := by
  refine h.steps.within ?_ hi
  rw [h.zero]
  exact ⟨Nat.le_refl _, trivial⟩

/-- All states of a run have the challenge of the run. -/
theorem challenge_eq {i : Nat} (hi : i ≤ script.length) : (states i).challenge = r := by
  rw [h.steps.challenge hi, h.zero]
  rfl

theorem lt_maxScriptSize {i : Nat} (hi : i < script.length) : i < maxScriptSize :=
  Nat.lt_of_lt_of_le hi h.fit

/-- The row of a byte. -/
theorem byteRow {i : Nat} (hi : i < script.length) : (V (i + 1)).Shows r (State.rowOfByte r script states i hi) := by
  have hrow := h.shows (i + 1) (Nat.succ_lt_succ (Nat.lt_succ_of_lt (h.lt_maxScriptSize hi)))
  rw [Trace.rowAt, if_neg (Nat.succ_ne_zero i)] at hrow
  simp only [Nat.add_sub_cancel, hi, dif_pos] at hrow
  exact hrow

/-- A row behind the script. -/
theorem rowBehind {i : Nat} (hi : script.length ≤ i) (hlast : i ≤ maxScriptSize) :
    (V (i + 1)).Shows r (.padding (states script.length) (if i = maxScriptSize then 0 else Opcode.nop)) := by
  have hrow := h.shows (i + 1) (Nat.succ_lt_succ (Nat.lt_succ_of_le hlast))
  rw [Trace.rowAt, if_neg (Nat.succ_ne_zero i), Nat.add_sub_cancel, dif_neg (Nat.not_lt.mpr hi)] at hrow
  simp only [Nat.succ_inj] at hrow
  exact hrow

theorem initialRow : (V 0).Shows r (.initial script.length (hornerReversed r script) (states 0)) :=
  h.shows 0 (Nat.succ_pos _)

/-- The first row announces the length of the script. -/
theorem length_eq : Rows.length V = script.length := by
  have hfit : script.length ≤ 520 := h.fit
  rw [Rows.length, h.initialRow.scriptLeft]
  exact Felt.toNat_natCast_of_lt (by change script.length < _; omega)

/-- The opcode of the row of a byte is the byte. -/
theorem classified_byte {i : Nat} (hi : i < script.length) : (V (i + 1)).Classified script[i] := by
  have hrow := h.classified i (h.lt_maxScriptSize hi)
  rw [Trace.rowAt, if_neg (Nat.succ_ne_zero i)] at hrow
  simp only [Nat.add_sub_cancel, hi, dif_pos] at hrow
  exact hrow

/-- The row of a state. -/
theorem state {i : Nat} (hi : i ≤ script.length) :
    (V i).stack = (states i).stack ∧ (V i).keyAcc = (states i).keyAcc ∧ (V i).checks = ((states i).checks : Felt) := by
  rcases i with _ | i
  · exact ⟨h.initialRow.stack, h.initialRow.keyAcc, h.initialRow.checks⟩
  · exact ⟨(h.byteRow hi).stack, (h.byteRow hi).keyAcc, (h.byteRow hi).checks⟩

/-- The rows from the last state on. -/
theorem final_state {i : Nat} (hi : script.length ≤ i) (hlast : i ≤ maxScriptSize + 1) :
    (V i).stack = (states script.length).stack ∧ (V i).keyAcc = (states script.length).keyAcc ∧
      (V i).checks = ((states script.length).checks : Felt) := by
  rcases Nat.lt_or_eq_of_le hi with hlt | rfl
  · obtain ⟨i, rfl⟩ := Nat.exists_eq_succ_of_ne_zero (Nat.ne_zero_of_lt hlt)
    have hrow := h.rowBehind (Nat.le_of_lt_succ hlt) (Nat.le_of_succ_le_succ hlast)
    exact ⟨hrow.stack, hrow.keyAcc, hrow.checks⟩
  · exact h.state (Nat.le_refl _)

theorem challenge {i : Nat} (hi : i ≤ maxScriptSize + 1) : (V i).challenge = r :=
  (h.shows i (Nat.lt_succ_of_le hi)).challenge

/-- Every row shows how many bytes of the script are left. -/
theorem scriptLeft {i : Nat} (hi : i ≤ maxScriptSize) : (V (i + 1)).scriptLeft = ((script.length - i : Nat) : Felt) := by
  by_cases hbyte : i < script.length
  · exact (h.byteRow hbyte).scriptLeft
  · rw [(h.rowBehind (Nat.not_lt.mp hbyte) hi).scriptLeft, Nat.sub_eq_zero_of_le (Nat.not_lt.mp hbyte)]
    rfl

/-- Every row shows the combination of the bytes behind it. -/
theorem scriptAcc {i : Nat} (hi : i ≤ maxScriptSize + 1) : (V i).scriptAcc = hornerReversed r (script.drop i) := by
  rcases i with _ | i
  · exact h.initialRow.scriptAcc
  · by_cases hbyte : i < script.length
    · exact (h.byteRow hbyte).scriptAcc
    · have hnil : script.drop (i + 1) = [] := List.drop_eq_nil_of_le (Nat.le_succ_of_le (Nat.not_lt.mp hbyte))
      rw [(h.rowBehind (Nat.not_lt.mp hbyte) (Nat.le_of_succ_le_succ hi)).scriptAcc, hnil]
      rfl

/-! ## The counters in the row behind a state -/

/-- A state inside a push has a byte behind it. -/
theorem lt_length {i : Nat} (hi : i ≤ script.length) (hmode : (states i).mode ≠ .opcode) : i < script.length := by
  refine Nat.lt_of_le_of_ne hi ?_
  rintro rfl
  exact hmode h.final

/-- The counters in the row of a byte are those of the row of its step. -/
theorem counters {i : Nat} (hi : i < script.length) :
    (V (i + 1)).dataLeft = .ofNat (State.row (states i) (states (i + 1)) script[i]).dataLeft ∧
      (V (i + 1)).lengthLeft = .ofNat (State.row (states i) (states (i + 1)) script[i]).lengthLeft ∧
      (V (i + 1)).lengthWeight = .ofNat (State.row (states i) (states (i + 1)) script[i]).lengthWeight :=
  ⟨(h.byteRow hi).dataLeft, (h.byteRow hi).lengthLeft, (h.byteRow hi).lengthWeight⟩

/-- Where an opcode is expected nothing is open in the next row. -/
theorem opens {i : Nat} (hi : i ≤ script.length) (hmode : (states i).mode = .opcode) : (V (i + 1)).Opens := by
  rcases Nat.lt_or_eq_of_le hi with hlt | rfl
  · obtain ⟨hdata, hlength, -⟩ := h.counters hlt
    rw [State.row, hmode] at hdata hlength
    exact ⟨hdata, hlength⟩
  · have hrow := h.rowBehind (Nat.le_refl _) h.fit
    exact ⟨hrow.dataLeft, hrow.lengthLeft⟩

/-- Where data is expected the next row counts it. -/
theorem counters_of_data {i n : Nat} (hi : i ≤ script.length) (hmode : (states i).mode = .data n) :
    (V (i + 1)).dataLeft = (n : Felt) ∧ (V (i + 1)).lengthLeft = 0 := by
  have hlt : i < script.length := h.lt_length hi (by rw [hmode]; nofun)
  obtain ⟨hdata, hlength, -⟩ := h.counters hlt
  rw [State.row, hmode] at hdata hlength
  exact ⟨hdata, hlength⟩

/-- Where a length field is expected the next row counts its bytes and holds the weight of the first. -/
theorem counters_of_length {i n decoded weight : Nat} (hi : i ≤ script.length)
    (hmode : (states i).mode = .length n decoded weight) :
    (V (i + 1)).lengthLeft = (n : Felt) ∧ (V (i + 1)).lengthWeight = (weight : Felt) := by
  have hlt : i < script.length := h.lt_length hi (by rw [hmode]; nofun)
  obtain ⟨-, hlength, hweight⟩ := h.counters hlt
  rw [State.row, hmode] at hlength hweight
  exact ⟨hlength, hweight⟩

/-- The row of a length byte adds the digit to the length read so far. -/
theorem dataLeft_of_length {i n decoded weight : Nat} (hi : i < script.length)
    (hmode : (states i).mode = .length n decoded weight) :
    (V (i + 1)).dataLeft = ((decoded + script[i].toNat * weight : Nat) : Felt) := by
  obtain ⟨hdata, -⟩ := h.counters hi
  rw [State.row, hmode] at hdata
  exact hdata

/-- The row of a state inside a length field shows the length read so far. -/
theorem dataLeft_eq_decoded {i n decoded weight : Nat} (hi : i ≤ script.length)
    (hmode : (states i).mode = .length n decoded weight) : (V i).dataLeft = (decoded : Felt) := by
  rcases i with _ | i
  · rw [h.zero] at hmode
    cases hmode
  · have hstep := State.next_eq_ok.mp (h.steps i hi)
    generalize hs : states i = s at hstep
    generalize ht : states (i + 1) = t at hstep hmode
    cases hstep with
    | pushEmpty hopcode | pushNumber hopcode | invalid hopcode | valid hopcode | unclassified hopcode =>
      change s.mode = _ at hmode
      rw [hopcode] at hmode
      cases hmode
    | pushBytes | lastLength => cases hmode
    | pushData hopcode =>
      cases hmode
      rw [← hs] at hopcode
      rw [(h.opens (Nat.le_of_lt hi) hopcode).1, Nat.cast_zero]
    | @data m hdata =>
      change (if m = 1 then Mode.opcode else .data (m - 1)) = _ at hmode
      split at hmode <;> cases hmode
    | length hlength =>
      cases hmode
      rw [← hs] at hlength
      exact h.dataLeft_of_length hi hlength

/-! ## The kinds of rows -/

/-- The counters of a run are numbers below the order of the field. -/
theorem lt_order {i n : Nat} (hn : n ≤ script.length - i) : n < 18446744069414584321 := by
  have hfit : script.length ≤ 520 := h.fit
  omega

/-- The rows with bytes left to read are those of the script. -/
theorem scriptLeft_ne_zero {i : Nat} (hi : i ≤ maxScriptSize) : (V (i + 1)).scriptLeft ≠ 0 ↔ i < script.length := by
  rw [h.scriptLeft hi, Ne, Felt.natCast_eq_zero (h.lt_order (Nat.le_refl _))]
  omega

/-- The row of a byte is that of an opcode exactly when the byte is read as one. -/
theorem atOpcode_iff {i : Nat} (hi : i < script.length) : (V (i + 1)).AtOpcode ↔ (states i).mode = .opcode := by
  have hleft := (h.scriptLeft_ne_zero (Nat.le_of_lt (h.lt_maxScriptSize hi))).mpr hi
  have hbounded := (h.within (Nat.le_of_lt hi)).mode
  cases hmode : (states i).mode with
  | opcode => exact iff_of_true ⟨hleft, h.opens (Nat.le_of_lt hi) hmode⟩ rfl
  | data n =>
    rw [hmode] at hbounded
    obtain ⟨hpos, hle⟩ := hbounded
    refine iff_of_false (fun hrow => ?_) (by nofun)
    have hzero := hrow.2.1
    rw [(h.counters_of_data (Nat.le_of_lt hi) hmode).1, Felt.natCast_eq_zero (h.lt_order hle)] at hzero
    exact Nat.ne_of_gt hpos hzero
  | length n decoded weight =>
    rw [hmode] at hbounded
    obtain ⟨hpos, hle, -⟩ := hbounded
    refine iff_of_false (fun hrow => ?_) (by nofun)
    have hzero := hrow.2.2
    rw [(h.counters_of_length (Nat.le_of_lt hi) hmode).1, Felt.natCast_eq_zero (h.lt_order hle)] at hzero
    exact Nat.ne_of_gt hpos hzero

/-- On a data row data is expected. -/
theorem mode_of_atData {i : Nat} (hi : i < script.length) (hrow : (V (i + 1)).AtData) : ∃ n, (states i).mode = .data n := by
  have hbounded := (h.within (Nat.le_of_lt hi)).mode
  cases hmode : (states i).mode with
  | opcode => exact absurd (h.opens (Nat.le_of_lt hi) hmode).1 hrow.2.1
  | data n => exact ⟨n, rfl⟩
  | length n decoded weight =>
    rw [hmode] at hbounded
    obtain ⟨hpos, hle, -⟩ := hbounded
    have hzero := hrow.2.2
    rw [(h.counters_of_length (Nat.le_of_lt hi) hmode).1, Felt.natCast_eq_zero (h.lt_order hle)] at hzero
    exact absurd hzero (Nat.ne_of_gt hpos)

/-- On a length row a length field is expected. -/
theorem mode_of_atLength {i : Nat} (hi : i < script.length) (hrow : (V (i + 1)).AtLength) :
    ∃ n decoded weight, (states i).mode = .length n decoded weight := by
  cases hmode : (states i).mode with
  | opcode => exact absurd (h.opens (Nat.le_of_lt hi) hmode).2 hrow.2
  | data n => exact absurd (h.counters_of_data (Nat.le_of_lt hi) hmode).2 hrow.2
  | length n decoded weight => exact ⟨n, decoded, weight, rfl⟩

/-! ## The gates of the row of a byte -/

section

variable {i : Nat} (hi : i < script.length)
include hi

/-- An indicator that is not zero is that of the class of the byte. -/
theorem class_of_indicator {k : OpcodeClass} (hind : (V (i + 1)).indicator k ≠ 0) :
    Opcode.class? script[i] = some k := by
  by_contra hother
  rw [(h.classified_byte hi).indicator, if_neg hother] at hind
  exact hind rfl

/-- The step of a byte that is read as an opcode. -/
theorem execute_eq (hrow : (V (i + 1)).AtOpcode) :
    (states i).execute script[i] (script.length - (i + 1)) = .ok (states (i + 1)) := by
  rw [← next_of_opcode ((h.atOpcode_iff hi).mp hrow)]
  exact h.steps i hi

/-- The step of a byte of a class. -/
theorem execute_of_indicator {k : OpcodeClass} (hrow : (V (i + 1)).AtOpcode ∧ (V (i + 1)).indicator k ≠ 0) :
    (states i).mode = .opcode ∧ Opcode.class? script[i] = some k ∧
      (states i).execute script[i] (script.length - (i + 1)) = .ok (states (i + 1)) :=
  ⟨(h.atOpcode_iff hi).mp hrow.1, h.class_of_indicator hi hrow.2, h.execute_eq hi hrow.1⟩

/-- The row of a small number pushes it. -/
theorem pushNumber (hrow : (V (i + 1)).AtOpcode ∧ (V (i + 1)).indicator .pushNumber ≠ 0) :
    (V (i + 1)).stack = (V i).stack.push ((V (i + 1)).opcode - .ofNat 0x50) ∧ (V (i + 2)).Opens := by
  obtain ⟨hmode, hclass, hnext⟩ := h.execute_of_indicator hi hrow
  simp only [State.execute, hclass] at hnext
  have hstate := pure_eq_ok.mp hnext
  refine ⟨?_, h.opens hi (by rw [hstate]; exact hmode)⟩
  rw [(h.state hi).1, (h.state (Nat.le_of_lt hi)).1, (h.classified_byte hi).opcode, ← ofByte_sub_reserved hclass, hstate]

/-- The row of the empty byte string pushes the negative zero. -/
theorem pushEmpty (hrow : (V (i + 1)).AtOpcode ∧ (V (i + 1)).indicator .pushEmpty ≠ 0) :
    (V (i + 1)).stack = (V i).stack.push negativeZero ∧ (V (i + 2)).Opens := by
  obtain ⟨hmode, hclass, hnext⟩ := h.execute_of_indicator hi hrow
  simp only [State.execute, hclass] at hnext
  have hstate := pure_eq_ok.mp hnext
  refine ⟨?_, h.opens hi (by rw [hstate]; exact hmode)⟩
  rw [(h.state hi).1, (h.state (Nat.le_of_lt hi)).1, hstate]

/-- The row of a no-operation keeps the stack. -/
theorem nop (hrow : (V (i + 1)).AtOpcode ∧ (V (i + 1)).nop ≠ 0) :
    (V (i + 1)).stack = (V i).stack ∧ (V (i + 2)).Opens := by
  have hclass : Opcode.class? script[i] = none := by
    cases hclass : Opcode.class? script[i] with
    | none => rfl
    | some k => exact absurd (nop_eq_zero (h.classified_byte hi) hclass) hrow.2
  have hnext := h.execute_eq hi hrow.1
  simp only [State.execute, hclass] at hnext
  have hstate := pure_eq_ok.mp hnext
  refine ⟨?_, h.opens hi (by rw [hstate]; exact (h.atOpcode_iff hi).mp hrow.1)⟩
  rw [(h.state hi).1, (h.state (Nat.le_of_lt hi)).1, hstate]

/-- The row of a direct push opens its data over a zero. -/
theorem pushBytes (hrow : (V (i + 1)).AtOpcode ∧ (V (i + 1)).indicator .pushBytes ≠ 0) :
    (V (i + 1)).stack = (V i).stack.push 0 ∧ (V (i + 2)).dataLeft = (V (i + 1)).opcode ∧ (V (i + 2)).lengthLeft = 0 := by
  obtain ⟨-, hclass, hnext⟩ := h.execute_of_indicator hi hrow
  simp only [State.execute, hclass] at hnext
  obtain ⟨-, hnext⟩ := ite_throw_eq_ok.mp hnext
  have hstate := pure_eq_ok.mp hnext
  obtain ⟨hdata, hlength⟩ := h.counters_of_data (n := script[i].toNat) hi (by rw [hstate])
  refine ⟨?_, ?_, hlength⟩
  · rw [(h.state hi).1, (h.state (Nat.le_of_lt hi)).1, hstate]
  · rw [hdata, (h.classified_byte hi).opcode, Felt.ofByte_eq]

/-- The row of a push with a length field opens the field over a zero. -/
theorem pushData {k : OpcodeClass} {width : Nat} (hwidth : k.lengthWidth? = some width)
    (hrow : (V (i + 1)).AtOpcode ∧ (V (i + 1)).indicator k ≠ 0) :
    (V (i + 1)).stack = (V i).stack.push 0 ∧ (V (i + 2)).lengthLeft = .ofNat width ∧ (V (i + 2)).lengthWeight = 1 := by
  obtain ⟨-, hclass, hnext⟩ := h.execute_of_indicator hi hrow
  have hopen : (states i).openLength script[i] width (script.length - (i + 1)) = .ok (states (i + 1)) := by
    rw [← hnext, State.execute, hclass]
    cases k <;> cases hwidth <;> rfl
  obtain ⟨-, hstate⟩ := openLength_eq_ok.mp hopen
  have hmode' : (states (i + 1)).mode = .length width 0 1 := by rw [hstate]
  obtain ⟨hlength, hweight⟩ := h.counters_of_length hi hmode'
  refine ⟨?_, hlength, hweight.trans Nat.cast_one⟩
  rw [(h.state hi).1, (h.state (Nat.le_of_lt hi)).1, hstate]

/-- The row of a signature check replaces flag and key by the flag, and folds and counts the key of a true one. -/
theorem checkSignature (hrow : (V (i + 1)).AtOpcode ∧ (V (i + 1)).indicator .checkSignature ≠ 0) :
    ((V i).flag = 0 ∨ (V i).flag = 1) ∧ (V (i + 1)).stack = (V i).stack.pop.pop.push (V i).flag ∧
      (V (i + 1)).keyAcc = (V i).keyAcc +
        (V i).flag * ((V i).keyAcc * ((V (i + 1)).challenge - 1) + (V i).stack.top) ∧
      (V (i + 1)).checks = (V i).checks + (V i).flag ∧ (V (i + 2)).Opens := by
  obtain ⟨hmode, hclass, hnext⟩ := h.execute_of_indicator hi hrow
  simp only [State.execute, hclass] at hnext
  obtain ⟨hstack, hkey, hchecks⟩ := h.state (Nat.le_of_lt hi)
  obtain ⟨hstack', hkey', hchecks'⟩ := h.state hi
  have hchallenge : (V (i + 1)).challenge = (states i).challenge := by
    rw [h.challenge (Nat.le_succ_of_le (h.lt_maxScriptSize hi)), h.challenge_eq (Nat.le_of_lt hi)]
  have hopens : (states (i + 1)).mode = (states i).mode → (V (i + 2)).Opens := fun hsame =>
    h.opens hi (hsame.trans hmode)
  have hflag : (V i).flag = getElem (states i).stack 1 one_lt_stackDepth := by rw [View.flag, hstack]
  rw [hflag, hstack, hkey, hchecks, hstack', hkey', hchecks', hchallenge]
  obtain ⟨hzero, hstate⟩ | ⟨hone, hstate⟩ := checkSignature_eq_ok.mp hnext
  · rw [hzero]
    refine ⟨.inl rfl, by rw [hstate], ?_, ?_, hopens (by rw [hstate])⟩
    · rw [hstate, zero_mul, add_zero]
    · rw [hstate, add_zero]
  · rw [hone]
    refine ⟨.inr rfl, by rw [hstate], ?_, ?_, hopens (by rw [hstate])⟩
    · rw [hstate]
      ring
    · rw [hstate]
      exact Nat.cast_succ _

/-- Only a valid signature changes the accumulators. -/
theorem accumulators (hrow : ¬((V (i + 1)).AtOpcode ∧ (V (i + 1)).indicator .checkSignature = 1)) :
    (V (i + 1)).keyAcc = (V i).keyAcc ∧ (V (i + 1)).checks = (V i).checks := by
  obtain ⟨-, hkey, hchecks⟩ := h.state (Nat.le_of_lt hi)
  obtain ⟨-, hkey', hchecks'⟩ := h.state hi
  rw [hkey, hchecks, hkey', hchecks']
  have hstep := State.next_eq_ok.mp (h.steps i hi)
  have hopcode := h.atOpcode_iff hi
  generalize states i = s at hstep hopcode
  generalize states (i + 1) = t at hstep
  cases hstep with
  | valid hmode hclass =>
    refine absurd ⟨hopcode.mpr hmode, ?_⟩ hrow
    rw [(h.classified_byte hi).indicator, if_pos hclass]
  | _ => exact ⟨rfl, rfl⟩

/-- The row of a data byte adds it to the item on top. -/
theorem dataByte (hrow : (V (i + 1)).AtData) :
    (V (i + 1)).stack = (V i).stack.setTop ((V (i + 1)).opcode + (V (i + 1)).challenge * (V i).stack.top) ∧
      (V (i + 2)).dataLeft + 1 = (V (i + 1)).dataLeft ∧ (V (i + 2)).lengthLeft = 0 := by
  obtain ⟨n, hmode⟩ := h.mode_of_atData hi hrow
  have hstate : states (i + 1) = (states i).appendData script[i] n := by
    have hnext := h.steps i hi
    rw [State.next, hmode] at hnext
    exact pure_eq_ok.mp hnext
  have hbounded := (h.within (Nat.le_of_lt hi)).mode
  rw [hmode] at hbounded
  obtain ⟨n, rfl⟩ := Nat.exists_eq_succ_of_ne_zero (Nat.ne_of_gt hbounded.1)
  obtain ⟨hdata, -⟩ := h.counters_of_data (Nat.le_of_lt hi) hmode
  refine ⟨?_, ?_⟩
  · rw [(h.state hi).1, (h.state (Nat.le_of_lt hi)).1, hstate, (h.classified_byte hi).opcode,
      h.challenge (Nat.le_succ_of_le (h.lt_maxScriptSize hi)), ← h.challenge_eq (Nat.le_of_lt hi)]
    rfl
  · by_cases hlast : n = 0
    · subst hlast
      obtain ⟨hzero, hlength⟩ := h.opens hi (by rw [hstate]; rfl)
      rw [hzero, hdata, zero_add]
      exact ⟨Nat.cast_one.symm, hlength⟩
    · have hmode' : (states (i + 1)).mode = .data n := by
        rw [hstate]
        exact if_neg fun hone => hlast (Nat.succ.inj hone)
      obtain ⟨hnext, hlength⟩ := h.counters_of_data hi hmode'
      rw [hnext, hdata]
      exact ⟨(Nat.cast_succ n).symm, hlength⟩

/-- The row of a length byte adds its digit to the length and closes the field behind the last one. -/
theorem lengthByte (hrow : (V (i + 1)).AtLength) :
    (V (i + 1)).dataLeft = (V (i + 1)).opcode * (V (i + 1)).lengthWeight + (V i).dataLeft ∧
      (V (i + 2)).lengthLeft + 1 = (V (i + 1)).lengthLeft ∧
      ((V (i + 1)).lengthLeft ≠ 1 → (V (i + 2)).lengthWeight = .ofNat 256 * (V (i + 1)).lengthWeight) ∧
      ((V (i + 1)).lengthLeft = 1 → (V (i + 2)).dataLeft = (V (i + 1)).dataLeft ∧ (V (i + 1)).dataLeft ≠ 0) ∧
      (V (i + 1)).stack = (V i).stack := by
  obtain ⟨n, decoded, weight, hmode⟩ := h.mode_of_atLength hi hrow
  obtain ⟨hlength, hweight⟩ := h.counters_of_length (Nat.le_of_lt hi) hmode
  have hdata := h.dataLeft_of_length hi hmode
  have hdecoded := h.dataLeft_eq_decoded (Nat.le_of_lt hi) hmode
  have hnext : (states i).takeLength script[i] n decoded weight (script.length - (i + 1)) = .ok (states (i + 1)) := by
    have hnext := h.steps i hi
    rw [State.next, hmode] at hnext
    exact hnext
  have hbounded := (h.within (Nat.le_of_lt hi)).mode
  rw [hmode] at hbounded
  have hone : (V (i + 1)).lengthLeft = 1 ↔ n = 1 := by
    rw [hlength, Felt.natCast_eq_one (h.lt_order hbounded.2.1)]
  have hsum : (V (i + 1)).dataLeft = (V (i + 1)).opcode * (V (i + 1)).lengthWeight + (V i).dataLeft := by
    rw [hdata, hdecoded, hweight, (h.classified_byte hi).opcode, Felt.ofByte_eq, Nat.cast_add, Nat.cast_mul]
    exact add_comm _ _
  refine ⟨hsum, ?_⟩
  rw [(h.state hi).1, (h.state (Nat.le_of_lt hi)).1]
  -- The field ends with this byte, or the next one weighs 256 times as much.
  obtain ⟨rfl, hpos, hfit, hstate⟩ | ⟨hmore, hstate⟩ := takeLength_eq_ok.mp hnext
  · obtain ⟨hdata', hlength'⟩ := h.counters_of_data (n := decoded + script[i].toNat * weight) hi (by rw [hstate])
    refine ⟨?_, fun hne => absurd (hone.mpr rfl) hne, fun _ => ⟨hdata'.trans hdata.symm, ?_⟩, by rw [hstate]⟩
    · rw [hlength', hlength, zero_add, Nat.cast_one]
    · rw [hdata, Ne, Felt.natCast_eq_zero (h.lt_order hfit)]
      exact hpos
  · have hmode' : (states (i + 1)).mode = .length (n - 1) (decoded + script[i].toNat * weight) (weight * 256) := by
      rw [hstate]
    obtain ⟨hlength', hweight'⟩ := h.counters_of_length hi hmode'
    refine ⟨?_, fun _ => ?_, fun h' => absurd (hone.mp h') hmore, by rw [hstate]⟩
    · rw [hlength', hlength, ← Nat.cast_succ, Nat.succ_eq_add_one, Nat.sub_add_cancel hbounded.1]
    · rw [hweight', hweight, Nat.cast_mul, mul_comm]
      rfl

/-- The gates of the row of a byte. -/
theorem byteStep : ByteStep (V i) (V (i + 1)) (V (i + 2)) := by
  have hrow : i < maxScriptSize := h.lt_maxScriptSize hi
  have hleft : (V (i + 1)).scriptLeft ≠ 0 := (h.scriptLeft_ne_zero (Nat.le_of_lt hrow)).mpr hi
  exact
    { challenge := by
        rw [h.challenge (Nat.le_succ_of_le hrow), h.challenge (Nat.le_succ_of_le (Nat.le_of_lt hrow))]
      script := by
        intro _
        rw [h.scriptAcc (Nat.le_succ_of_le (Nat.le_of_lt hrow)), h.scriptAcc (Nat.le_succ_of_le hrow),
          List.drop_eq_getElem_cons hi, hornerReversed_cons, (h.classified_byte hi).opcode,
          h.challenge (Nat.le_succ_of_le hrow), h.scriptLeft hrow, h.scriptLeft (Nat.le_of_lt hrow), ← Nat.cast_succ]
        refine ⟨add_comm _ _, congrArg Nat.cast ?_⟩
        omega
      behind := fun hzero => absurd hzero hleft
      frozen := fun hzero => absurd hzero hleft
      pushNumber := h.pushNumber hi
      pushEmpty := h.pushEmpty hi
      nop := h.nop hi
      pushBytes := h.pushBytes hi
      pushData := fun k width hwidth => h.pushData hi hwidth
      dataByte := h.dataByte hi
      lengthByte := h.lengthByte hi
      checkSignature := h.checkSignature hi
      accumulators := h.accumulators hi }

end

/-- The gates of a row of padding. -/
theorem byteStep_behind {i : Nat} (hi : script.length ≤ i) (hrow : i < maxScriptSize) :
    ByteStep (V i) (V (i + 1)) (V (i + 2)) := by
  have hzero : (V (i + 1)).scriptLeft = 0 := by
    by_contra hne
    exact Nat.not_lt.mpr hi ((h.scriptLeft_ne_zero (Nat.le_of_lt hrow)).mp hne)
  have hpadding := h.rowBehind hi (Nat.le_of_lt hrow)
  obtain ⟨hstack, hkey, hchecks⟩ := h.final_state hi (Nat.le_succ_of_le (Nat.le_of_lt hrow))
  have hacc : (V (i + 1)).keyAcc = (V i).keyAcc ∧ (V (i + 1)).checks = (V i).checks :=
    ⟨hpadding.keyAcc.trans hkey.symm, hpadding.checks.trans hchecks.symm⟩
  have hopcode : (V (i + 1)).opcode = .ofNat 0x61 := by
    rw [hpadding.opcode, if_neg (Nat.ne_of_lt hrow)]
    rfl
  have hoff : ∀ {k : OpcodeClass}, ¬((V (i + 1)).AtOpcode ∧ (V (i + 1)).indicator k ≠ 0) := fun hat => hat.1.1 hzero
  exact
    { challenge := by
        rw [h.challenge (Nat.le_succ_of_le hrow), h.challenge (Nat.le_succ_of_le (Nat.le_of_lt hrow))]
      script := fun hleft => absurd hzero hleft
      behind := by
        intro _
        rw [hpadding.scriptAcc, h.scriptLeft hrow, Nat.sub_eq_zero_of_le (Nat.le_succ_of_le hi)]
        exact ⟨rfl, Nat.cast_zero⟩
      frozen := fun _ =>
        ⟨hpadding.stack.trans hstack.symm, hopcode, hpadding.dataLeft, hpadding.lengthLeft, hacc.1, hacc.2⟩
      pushNumber := fun hat => absurd hat hoff
      pushEmpty := fun hat => absurd hat hoff
      nop := fun hat => absurd hzero hat.1.1
      pushBytes := fun hat => absurd hat hoff
      pushData := fun _ _ _ hat => absurd hat hoff
      dataByte := fun hat => absurd hzero hat.1
      lengthByte := fun hat => absurd hzero hat.1
      checkSignature := fun hat => absurd hat hoff
      accumulators := fun _ => hacc }

/-- The rows of a run satisfy the gates and the lookup. -/
theorem rows : Rows V where
  first := by
    have hrow := h.initialRow
    obtain ⟨-, hkey, hchecks⟩ := h.state (Nat.zero_le _)
    refine ⟨hrow.dataLeft, hrow.lengthLeft, h.opens (Nat.zero_le _) ?_, ?_, ?_, ?_⟩
    · rw [h.zero]
      rfl
    · rw [hkey, h.zero]
      rfl
    · rw [hchecks, h.zero]
      rfl
    · rw [h.scriptLeft (Nat.zero_le _), hrow.scriptLeft]
      rfl
  byte i hi := by
    by_cases hbyte : i < script.length
    · exact h.byteStep hbyte
    · exact h.byteStep_behind (Nat.not_lt.mp hbyte) hi
  table i hi := .inl ⟨_, h.classified i hi⟩
  last := by
    have hrow := h.rowBehind h.fit (Nat.le_refl _)
    obtain ⟨hstack, hkey, hchecks⟩ := h.final_state h.fit (Nat.le_succ _)
    refine ⟨?_, hrow.scriptLeft, hrow.dataLeft, hrow.lengthLeft, hrow.scriptAcc, hrow.keyAcc.trans hkey.symm,
      hrow.checks.trans hchecks.symm, hrow.stack.trans hstack.symm⟩
    rw [h.challenge (Nat.le_refl _), h.challenge (Nat.le_succ _)]

end Honest

end ScriptCircuit.Execution
