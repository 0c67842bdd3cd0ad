import Mathlib
import ScriptCircuit.Proofs.Circuit.Placement
import ScriptCircuit.Proofs.Circuit.Slots
import ScriptCircuit.Proofs.Execution.Completeness

/-!
# Which spends have a witness, and what its check finds

A spend has a witness exactly when its signatures go with the keys its script consumes and verify under them. The check of
this witness finds what the check of the trace alone would find, and nothing in the bridge, the tables or the copy
constraints.
-/

namespace ScriptCircuit.Circuit

open Combination MatrixAux

-- Neither the matrix nor its cells are computed here.
attribute [local irreducible] Matrix.writeAll

/-- The claim about the witness of a spend with a trace over the slots of its signatures. -/
def claimOf (s : Spend) (trace : Trace) (keys : List ConsumedKey) (padding : Signature) : Claim where
  system := system.2
  witness := system.1.witnessOf system.2 trace (Bridge.Slot.padded s.signatures keys padding) s.signatures.length
  instances := (s.publicValues.map List.toArray).toArray

/-- What a spend has whose witness is checked: a trace, the keys its script consumes, and slots for its signatures. -/
structure Built (s : Spend) (trace : Trace) (keys : List ConsumedKey) (padding : Signature) : Prop where
  trace_eq : Trace.ofItems s.script s.challenge s.items = .ok trace
  keys_eq : Keys.collect s.script s.items = .ok keys
  keys_match : s.signatures.map (·.key) = keys.map (·.key)
  length_le : s.signatures.length ≤ maxSignatures
  padding_eq : Signature.paddingSignature = .ok padding

namespace Built

variable {s : Spend} {trace : Trace} {keys : List ConsumedKey} {padding : Signature} (h : Built s trace keys padding)
include h

/-- The trace of a spend is that of a run from some slots. -/
theorem run : ∃ slots, Trace.ofStack s.script s.challenge slots = .ok trace := by
  obtain ⟨slots, -, hrun⟩ := except_bind_eq_ok.mp h.trace_eq
  exact ⟨slots, hrun⟩

theorem full : trace.rows.length = traceRows :=
  Spend.length_rows_of_trace h.trace_eq

/-- The trace of a spend has the challenge of the spend. -/
theorem challenge_eq : trace.challenge = s.challenge := by
  obtain ⟨slots, hrun⟩ := h.run
  obtain ⟨-, -, -, -, -, ⟨-, hchallenge, -⟩, -⟩ := Trace.ofStack_eq_ok.mp hrun
  exact hchallenge

/-- The slots are padded to their number. -/
theorem length_padded : (Bridge.Slot.padded s.signatures keys padding).length = maxSignatures :=
  (Bridge.Slot.length_ofSignatures (Bridge.Slot.ofSignatures_eq_ok.mpr
    ⟨h.length_le, h.keys_match, padding, h.padding_eq, rfl⟩)).1

/-- The last row of the trace counts the consumed keys and folds them. -/
theorem lastRow_eq : trace.lastRow.checks = s.signatures.length ∧
    trace.lastRow.keyAcc = keyFold s.challenge (keys.map (·.bytes)) := by
  obtain ⟨final, hreplay, hchecks, hkeyAcc⟩ := Keys.registers_of_collect s.challenge h.keys_eq
  obtain ⟨slots, hslots, -⟩ := except_bind_eq_ok.mp h.trace_eq
  have hitems := Nat.not_lt.mp (RunAux.ite_throw_eq_ok.mp hslots).1
  obtain ⟨trace', htrace, hlast⟩ := Trace.exists_of_replay s.challenge hitems hreplay
  obtain rfl : trace' = trace := Except.ok.inj (htrace.symm.trans h.trace_eq)
  constructor
  · refine (congrArg Registers.checks hlast).trans (hchecks.trans ?_)
    exact (Bridge.map_key_eq_iff.mp h.keys_match).1.symm
  · exact (congrArg Registers.keyAcc hlast).trans hkeyAcc

/-! ## The parts of the claim -/

/-- The execution region holds the trace. -/
theorem assigned : system.1.execution.Assigned (claimOf s trace keys padding) 0 trace := by
  have hend : 0 + traceRows ≤ height := by decide
  refine Columns.system_proper.execution.assigned (Columns.system_proper.writes_execution
    (Bridge.Slot.padded s.signatures keys padding) s.signatures.length) h.full (by decide) hend ?_ ?_
  · exact Matrix.rows_writeAll (Matrix.zero system.2 height) _
  · intro column row hkind
    rw [Claim.value, if_neg hkind]
    rfl

/-- The bridge holds the slots. -/
theorem filled : system.1.bridge.Filled (claimOf s trace keys padding) verificationRow rangeRow bridgeRow s.challenge
    (Bridge.Slot.padded s.signatures keys padding) s.signatures.length := by
  rw [← h.challenge_eq]
  exact Columns.system_proper.bridge.filled (Columns.system_proper.writes_bridge h.full _ _) h.length_padded
    (by decide) (by decide) (by decide) (by decide) rfl

omit h in
theorem rows_eq : (claimOf s trace keys padding).rows = height :=
  Matrix.rows_writeAll (Matrix.zero system.2 height) _

/-- The gates and lookups of the bridge hold. -/
theorem bridge_accepted : system.1.bridge.Accepted (claimOf s trace keys padding) verificationRow rangeRow bridgeRow := by
  refine h.filled.accepted (Bridge.Slot.formed_padded (Keys.parsed_of_collect h.keys_eq) h.keys_match padding) h.length_le ?_
  rw [rows_eq]
  decide

/-! ## The copy constraints -/

/-- A cell of the execution region exists. -/
theorem hasCell_execution {column : Column} (hcolumn : column ∈ system.1.execution.adviceColumns) {i : Nat}
    (hi : i < traceRows) : (claimOf s trace keys padding).HasCell ⟨column, i⟩ := by
  have hkind : column.kind ≠ .publicInput := by
    rw [(Columns.system_proper.execution.advice_kind column hcolumn).1]
    decide
  rw [Claim.HasCell, if_neg hkind]
  refine ⟨?_, (Matrix.hasColumn_writeAll ..).mpr (Columns.system_proper.execution.hasColumn_zero _ (.inl hcolumn))⟩
  rw [← Nat.zero_add i]
  exact h.assigned.placed.row_lt hi

/-- The last row of the execution region holds the fold of the consumed keys and their number. -/
theorem last_values : (claimOf s trace keys padding).value system.1.execution.keyAcc lastRow =
      keyFold s.challenge (keys.map (·.bytes)) ∧
    (claimOf s trace keys padding).value system.1.execution.checks lastRow = (s.signatures.length : Felt) := by
  have hlast : ∃ row, trace.rows[lastRow]? = some row :=
    ⟨_, List.getElem?_eq_getElem (Nat.lt_of_lt_of_le (by decide) (Nat.le_of_eq h.full.symm))⟩
  obtain ⟨last, hlast⟩ := hlast
  have hshows := h.assigned.shows hlast
  rw [Nat.zero_add, ← Trace.lastRow_eq h.full hlast] at hshows
  obtain ⟨hchecks, hkeyAcc⟩ := h.lastRow_eq
  exact ⟨hshows.keyAcc.trans hkeyAcc, hshows.checks.trans (congrArg Nat.cast hchecks)⟩

/-- The cells that the execution region shares with the bridge agree. -/
theorem links_agree : ∀ copy ∈ system.1.bridgeLinks, (claimOf s trace keys padding).Agrees copy := by
  have hfirst : ∃ row, trace.rows[0]? = some row :=
    ⟨_, List.getElem?_eq_getElem (Nat.lt_of_lt_of_le (by decide) (Nat.le_of_eq h.full.symm))⟩
  obtain ⟨first, hfirst⟩ := hfirst
  have hshows := h.assigned.shows hfirst
  obtain ⟨hfold, hcount⟩ := h.last_values
  obtain ⟨hchallenge, hchecks, hkeyAcc⟩ := h.filled.shared_hold
  rw [Bridge.accumulators_padded (Keys.parsed_of_collect h.keys_eq) h.keys_match] at hkeyAcc
  simp only [Columns.bridgeLinks, List.forall_mem_cons, List.not_mem_nil, false_implies, implies_true, and_true]
  refine ⟨⟨h.hasCell_execution ?_ (by decide), hkeyAcc.1, ?_⟩, ⟨h.hasCell_execution ?_ (by decide), hchecks.1, ?_⟩,
    ⟨h.hasCell_execution ?_ (by decide), hchallenge.1, ?_⟩⟩
  · simp [Execution.Columns.adviceColumns]
  · exact hfold.trans hkeyAcc.2.symm
  · simp [Execution.Columns.adviceColumns]
  · exact hcount.trans hchecks.2.symm
  · simp [Execution.Columns.adviceColumns]
  · exact hshows.challenge.trans (h.challenge_eq.trans hchallenge.2.symm)

/-- The cells that the execution region shares with the public values agree. -/
theorem public_agrees : ∀ copy ∈ system.1.execution.publicCopies 0, (claimOf s trace keys padding).Agrees copy := by
  obtain ⟨slots, hrun⟩ := h.run
  obtain ⟨-, states, -, -, -, ⟨-, hchallenge, -⟩, -, hrow⟩ := Trace.ofStack_eq_ok.mp hrun
  have hfirst := h.assigned.shows (hrow 0 (Nat.succ_pos _))
  have hagrees : ∀ column ∈ system.1.execution.adviceColumns, ∀ k, (claimOf s trace keys padding).value column 0 =
      (s.publicValues.headD []).toArray.getD k 0 →
      (claimOf s trace keys padding).Agrees ⟨⟨column, 0⟩, ⟨system.1.execution.publicInput, k⟩⟩ := by
    intro column hcolumn k hvalue
    refine ⟨h.hasCell_execution hcolumn (Nat.succ_pos _), ?_, hvalue⟩
    rw [Claim.HasCell, if_pos Columns.system_proper.execution.public_kind]
    exact Nat.succ_pos _
  simp only [Execution.Columns.publicCopies, List.forall_mem_cons, List.not_mem_nil, false_implies, implies_true, and_true]
  refine ⟨hagrees _ (by simp [Execution.Columns.adviceColumns]) 0 ?_,
    hagrees _ (by simp [Execution.Columns.adviceColumns]) 1 ?_,
    hagrees _ (by simp [Execution.Columns.adviceColumns]) 2 ?_⟩
  · exact hfirst.scriptLeft
  · exact hfirst.scriptAcc
  · exact hfirst.challenge.trans hchallenge

/-- All copy constraints agree. -/
theorem agrees : ∀ copy ∈ (claimOf s trace keys padding).witness.copies, (claimOf s trace keys padding).Agrees copy := by
  change ∀ copy ∈ _ ++ (_ ++ _), _
  rw [List.forall_mem_append, List.forall_mem_append]
  exact ⟨h.filled.agrees, h.links_agree, h.public_agrees⟩

/-! ## The check -/

omit h in
/-- The tables of the claim exist. -/
theorem hasTables : (claimOf s trace keys padding).HasTables := by
  change ∀ l ∈ [system.1.execution.byteLookup] ++ (system.1.bridge.range.lookups ++ system.1.bridge.lookups), _
  intro l hl column hcolumn
  refine (Matrix.hasColumn_writeAll ..).mpr ?_
  rcases List.mem_append.mp hl with hl | hl
  · obtain rfl := List.mem_singleton.mp hl
    rw [Execution.Columns.byteLookup_table] at hcolumn
    exact Columns.system_proper.execution.hasColumn_zero _ (.inr (List.mem_append_right _ hcolumn))
  · exact Columns.system_proper.bridge.hasTables height l hl column hcolumn

/-- The check finds what that of the trace finds. -/
theorem failures_eq : (claimOf s trace keys padding).failures = .ok (Execution.traceFailures 0 trace) := by
  obtain ⟨slots, hrun⟩ := h.run
  obtain ⟨states, hh, hrows⟩ := h.assigned.honest hrun
  have hgates := Execution.Columns.Assigned.gates_failures h.assigned hh hrows
  have haccepted := h.bridge_accepted
  have hlookup : (claimOf s trace keys padding).lookupFailures system.1.execution.byteLookup = [] :=
    (Claim.lookupFailures_eq_nil ..).mpr fun row hrow =>
      h.assigned.exact.finds (fun i hi => h.assigned.placed.table_of_classified (hh.classified i hi)) hrow
  have hbridge : (system.1.bridge.verification.gates ++ (system.1.bridge.range.gates ++ system.1.bridge.gates)).flatMap
      (claimOf s trace keys padding).gateFailures = [] :=
    List.flatMap_eq_nil_iff.mpr fun g hg => (Claim.gateFailures_eq_nil ..).mpr (haccepted.gates g hg)
  have htables : (system.1.bridge.range.lookups ++ system.1.bridge.lookups).flatMap
      (claimOf s trace keys padding).lookupFailures = [] :=
    List.flatMap_eq_nil_iff.mpr fun l hl => (Claim.lookupFailures_eq_nil ..).mpr (haccepted.lookups l hl)
  rw [Claim.failures_of_agrees _ hasTables h.agrees]
  change Except.ok ((system.1.execution.gates ++ (system.1.bridge.verification.gates ++ (system.1.bridge.range.gates ++
    system.1.bridge.gates))).flatMap (claimOf s trace keys padding).gateFailures ++
      ([system.1.execution.byteLookup] ++ (system.1.bridge.range.lookups ++ system.1.bridge.lookups)).flatMap
        (claimOf s trace keys padding).lookupFailures) = _
  rw [List.flatMap_append, hgates, hbridge, List.flatMap_append, htables, List.flatMap_singleton, hlookup]
  simp only [List.append_nil]

omit h in
/-- The claim of a built spend with its public values. -/
theorem make_eq : Claim.make system.2 (claimOf s trace keys padding).witness s.publicValues =
    .ok (claimOf s trace keys padding) := by
  refine Claim.make_eq_ok.mpr ⟨rfl, ?_, rfl⟩
  intro values hvalues
  obtain rfl := List.mem_singleton.mp hvalues
  change 3 ≤ (claimOf s trace keys padding).rows
  rw [rows_eq]
  decide

end Built

/-- A spend has the witness of the claim about it when its signatures verify under the consumed keys, and no other one. -/
theorem witness_eq_ok_iff {s : Spend} {w : Witness} : s.witness system.2 system.1 = .ok w ↔
    ∃ trace keys padding, Built s trace keys padding ∧
      (∀ signed ∈ s.signatures, signed.signature.verifies signed.key Signature.messageHash = true) ∧
      w = (claimOf s trace keys padding).witness := by
  rw [Spend.witness_eq_ok Columns.system_proper]
  constructor
  · rintro ⟨hlength, trace, keys, slots, htrace, hkeys, hslots, hverifies, rfl⟩
    obtain ⟨-, hmatch, padding, hpadding, rfl⟩ := Bridge.Slot.ofSignatures_eq_ok.mp hslots
    refine ⟨trace, keys, padding, ⟨htrace, hkeys, hmatch, hlength, hpadding⟩, ?_, rfl⟩
    exact (Bridge.Slot.verifies_padded hpadding (Bridge.map_key_eq_iff.mp hmatch).1).mp hverifies
  · rintro ⟨trace, keys, padding, h, hverifies, rfl⟩
    refine ⟨h.length_le, trace, keys, _, h.trace_eq, h.keys_eq, Bridge.Slot.ofSignatures_eq_ok.mpr
      ⟨h.length_le, h.keys_match, padding, h.padding_eq, rfl⟩, ?_, rfl⟩
    exact (Bridge.Slot.verifies_padded h.padding_eq (Bridge.map_key_eq_iff.mp h.keys_match).1).mpr hverifies

/-- The check of the witness of a spend. -/
theorem Built.spend_failures {s : Spend} {trace : Trace} {keys : List ConsumedKey} {padding : Signature}
    (h : Built s trace keys padding)
    (hbuilt : s.witness system.2 system.1 = .ok (claimOf s trace keys padding).witness) :
    s.failures = .ok (Execution.traceFailures 0 trace) := by
  have hbody : s.failures = s.witness system.2 system.1 >>= fun w =>
      Claim.make system.2 w s.publicValues >>= fun claim => claim.failures := rfl
  rw [hbody]
  exact except_bind_eq_ok.mpr ⟨_, hbuilt, except_bind_eq_ok.mpr ⟨_, make_eq, h.failures_eq⟩⟩

/-! ## A spend that is accepted -/

/-- The spend of a script that checks one signature under the generator. -/
def generatorSpend (signature : Signature) : Spend :=
  ⟨Keys.generatorScript, (7 : Nat), [.validSignature], [⟨signature, PublicKey.generator⟩]⟩

/-- The spend with one signature under the generator has a trace without failures. -/
theorem generatorSpend_trace : ∃ trace, Trace.ofItems Keys.generatorScript 7 [.validSignature] = .ok trace ∧
    Execution.traceFailures 0 trace = [] := by
  have h : (Trace.ofItems Keys.generatorScript 7 [.validSignature]).toOption.any
      (fun trace => Execution.traceFailures 0 trace = []) = true := by decide +kernel
  obtain ⟨trace, htrace, hnone⟩ := (Option.any_eq_true _ _).mp h
  refine ⟨trace, ?_, of_decide_eq_true hnone⟩
  cases hrun : Trace.ofItems Keys.generatorScript 7 [.validSignature] with
  | error e =>
    rw [hrun] at htrace
    cases htrace
  | ok trace' =>
    rw [hrun] at htrace
    exact congrArg _ (Option.some.inj htrace)

/-- The padding signature verifies under the generator, so its spend is built, and the check of it finds nothing. -/
theorem generatorSpend_built : ∃ signature trace keys,
    Built (generatorSpend signature) trace keys signature ∧
      (∀ signed ∈ (generatorSpend signature).signatures,
        signed.signature.verifies signed.key Signature.messageHash = true) ∧
      Execution.traceFailures 0 trace = [] := by
  obtain ⟨signature, hpadding, hverifies⟩ := Signature.paddingSignature_verifies
  obtain ⟨trace, htrace, hnone⟩ := generatorSpend_trace
  refine ⟨signature, trace, _, ⟨htrace, Keys.collect_generatorScript, rfl, ?_, hpadding⟩, ?_, hnone⟩
  · exact (by decide : 1 ≤ maxSignatures)
  · intro signed hsigned
    obtain rfl := List.mem_singleton.mp hsigned
    exact hverifies

/-! ## All spends -/

/-- A spend has a witness exactly when it has at most four signatures, its script has a trace and consumes keys, the keys of
the signatures are the consumed keys one by one, and every signature verifies under its key. The check of this witness finds
a failure for every byte that is read as an opcode and is not enabled, then one for every row behind the script when the
final item is false, and nothing else. -/
theorem spend_fails_exactly (s : Spend) :
    ((∃ w, s.witness system.2 system.1 = .ok w) ↔
        s.signatures.length ≤ 4 ∧ ∃ trace keys, Trace.ofItems s.script s.challenge s.items = .ok trace ∧
          Keys.collect s.script s.items = .ok keys ∧ s.signatures.length = keys.length ∧
          (∀ (j : Nat) (signed : Bridge.SignedKey) (consumed : ConsumedKey), s.signatures[j]? = some signed →
            keys[j]? = some consumed → signed.key = consumed.key) ∧
          ∀ signed ∈ s.signatures, signed.signature.verifies signed.key Signature.messageHash = true) ∧
      ∀ w, s.witness system.2 system.1 = .ok w →
        ∃ trace, Trace.ofItems s.script s.challenge s.items = .ok trace ∧
          s.failures = .ok (Execution.traceFailures 0 trace) := by
  constructor
  · constructor
    · rintro ⟨w, hw⟩
      obtain ⟨trace, keys, padding, h, hverifies, -⟩ := witness_eq_ok_iff.mp hw
      obtain ⟨hcount, hkeys⟩ := Bridge.map_key_eq_iff_forall_getElem?.mp h.keys_match
      exact ⟨h.length_le, trace, keys, h.trace_eq, h.keys_eq, hcount, hkeys, hverifies⟩
    · rintro ⟨hlength, trace, keys, htrace, hkeys, hcount, hmatch, hverifies⟩
      obtain ⟨padding, hpadding, -⟩ := Signature.paddingSignature_verifies
      have h : Built s trace keys padding :=
        ⟨htrace, hkeys, Bridge.map_key_eq_iff_forall_getElem?.mpr ⟨hcount, hmatch⟩, hlength, hpadding⟩
      exact ⟨_, witness_eq_ok_iff.mpr ⟨trace, keys, padding, h, hverifies, rfl⟩⟩
  · intro w hw
    obtain ⟨trace, keys, padding, h, -, rfl⟩ := witness_eq_ok_iff.mp hw
    exact ⟨trace, h.trace_eq, h.spend_failures hw⟩

/-- A spend whose only signature verifies under the key that its script consumes has a witness, and the check of it finds
nothing. -/
theorem spend_fails_exactly_generator : ∃ signature,
    (∃ w, (generatorSpend signature).witness system.2 system.1 = .ok w) ∧
      (generatorSpend signature).failures = .ok [] := by
  obtain ⟨signature, trace, keys, h, hverifies, hnone⟩ := generatorSpend_built
  obtain ⟨hcount, hkeys⟩ := Bridge.map_key_eq_iff_forall_getElem?.mp h.keys_match
  obtain ⟨hexists, hfailures⟩ := spend_fails_exactly (generatorSpend signature)
  obtain ⟨w, hw⟩ := hexists.mpr ⟨h.length_le, trace, keys, h.trace_eq, h.keys_eq, hcount, hkeys, hverifies⟩
  obtain ⟨trace', htrace, hchecked⟩ := hfailures w hw
  obtain rfl : trace' = trace := Except.ok.inj (htrace.symm.trans h.trace_eq)
  exact ⟨signature, ⟨w, hw⟩, hchecked.trans (congrArg Except.ok hnone)⟩

end ScriptCircuit.Circuit
