import Mathlib
import ScriptCircuit.Proofs.Bridge.Keys
import ScriptCircuit.Proofs.Circuit.Completeness
import ScriptCircuit.Proofs.Circuit.Placement

/-!
# The keys an accepted circuit is bound to

Whatever is written into the advice columns of the circuit of a spend, a check that accepts it has seen a bridge whose rows
hold keys, and the fold of these keys is what the execution region ends with. The copy constraints carry the fold, the count
and the challenge over; the gates of the execution region play no part.
-/

namespace ScriptCircuit.Circuit

-- Neither the matrix nor its cells are computed here.
attribute [local irreducible] Matrix.writeAll

/-- What a claim about the witness of a spend with other advice has of the synthesis. -/
structure Overwritten (claim : Claim) : Prop where
  system_eq : claim.system = system.2
  placed : system.1.bridge.Placed claim verificationRow rangeRow bridgeRow
  copies : ∃ slots : List Bridge.Slot, slots.length = maxSignatures ∧ claim.witness.copies =
    system.1.bridge.bridgeCopies verificationRow rangeRow bridgeRow slots ++
      (system.1.bridgeLinks ++ system.1.execution.publicCopies 0)

/-- Overwriting the advice of the witness of a spend leaves the marks, the tables and the copy constraints. -/
theorem overwritten_of_built {s : Spend} {w : Witness} (hbuilt : s.witness system.2 system.1 = .ok w)
    {advice : Array (Vector Felt w.matrix.rows)} {instances : List (List Felt)} {claim : Claim}
    (hmake : Claim.make system.2 (w.withAdvice advice) instances = .ok claim) : Overwritten claim := by
  obtain ⟨-, trace, keys, slots, htrace, -, hslots, -, rfl⟩ := (Spend.witness_eq_ok Columns.system_proper).mp hbuilt
  obtain ⟨-, -, rfl⟩ := Claim.make_eq_ok.mp hmake
  have hrows := Spend.length_rows_of_trace htrace
  have hlength := (Bridge.Slot.length_ofSignatures hslots).1
  refine ⟨rfl, ?_, slots, hlength, rfl⟩
  refine Columns.system_proper.placed_bridge slots s.signatures.length hlength hrows ?_ ?_
  · exact Matrix.rows_writeAll (Matrix.zero system.2 height) _
  · intro column row hkind
    rw [Claim.value, if_neg (by rw [hkind]; decide)]
    exact Matrix.value_withAdvice (system.1.witnessOf system.2 trace slots s.signatures.length).matrix advice row hkind

namespace Overwritten

variable {claim : Claim} (h : Overwritten claim) (hok : claim.failures = .ok [])
include h hok

/-- The bridge of an accepted circuit. -/
theorem accepted : system.1.bridge.Accepted claim verificationRow rangeRow bridgeRow := by
  obtain ⟨-, hgates, hlookups, -⟩ := claim.failures_eq_nil.mp hok
  rw [h.system_eq] at hgates hlookups
  have hgates' : system.2.gates = system.1.execution.gates ++ (system.1.bridge.verification.gates ++
    (system.1.bridge.range.gates ++ system.1.bridge.gates)) := rfl
  have hlookups' : system.2.lookups = system.1.execution.lookups ++ (system.1.bridge.range.lookups ++
    system.1.bridge.lookups) := rfl
  exact ⟨h.placed, fun g hg => hgates g (hgates' ▸ List.mem_append_right _ hg),
    fun l hl => hlookups l (hlookups' ▸ List.mem_append_right _ hl)⟩

/-- The copy constraints of an accepted claim hold: those of the bridge, between bridge and execution, and of the public values.
-/
theorem agrees : ∃ slots : List Bridge.Slot, slots.length = maxSignatures ∧
    (∀ copy ∈ system.1.bridge.bridgeCopies verificationRow rangeRow bridgeRow slots, claim.Agrees copy) ∧
    (∀ copy ∈ system.1.bridgeLinks, claim.Agrees copy) ∧
    ∀ copy ∈ system.1.execution.publicCopies 0, claim.Agrees copy := by
  obtain ⟨-, -, -, hcopies⟩ := claim.failures_eq_nil.mp hok
  obtain ⟨slots, hlength, heq⟩ := h.copies
  rw [heq, List.forall_mem_append, List.forall_mem_append] at hcopies
  exact ⟨slots, hlength, hcopies⟩

/-- The copy constraints of the bridge agree. -/
theorem copied : system.1.bridge.Copied claim verificationRow rangeRow bridgeRow := by
  obtain ⟨slots, hlength, hagrees, -⟩ := h.agrees hok
  exact ⟨by decide, by decide, by decide, slots, hlength, hagrees⟩

/-- The first bridge row holds the fold, the count and the challenge of the execution region. -/
theorem linked :
    claim.value system.1.execution.keyAcc lastRow = (system.1.bridge.rowView claim bridgeRow).keyAcc ∧
      claim.value system.1.execution.checks lastRow = (system.1.bridge.rowView claim bridgeRow).checks ∧
      claim.value system.1.execution.publicInput 2 = (system.1.bridge.rowView claim bridgeRow).challenge := by
  obtain ⟨-, -, -, hlinks, hpublic⟩ := h.agrees hok
  simp only [Columns.bridgeLinks, Execution.Columns.publicCopies, List.forall_mem_cons, Claim.Agrees] at hlinks hpublic
  exact ⟨hlinks.1.2.2, hlinks.2.1.2.2, hpublic.2.2.1.2.2.symm.trans hlinks.2.2.1.2.2⟩

end Overwritten

/-! ## What an accepted claim holds -/

/-- The public challenge. -/
def publicChallenge (claim : Claim) : Felt :=
  claim.value system.1.execution.publicInput 2

/-- The number of checks that the execution region ends with. -/
def checkCount (claim : Claim) : Nat :=
  (claim.value system.1.execution.checks lastRow).toNat

/-- The key whose limbs stand in the row of a verified signature. -/
def slotKey (claim : Claim) (i : Nat) : PublicKey :=
  system.1.bridge.verification.keyAt claim (verificationRow + i)

/-- The limbs of both coordinates in the row of a verified signature. -/
def slotLimbs (claim : Claim) (i : Nat) : List Nat :=
  Verification.limbValues system.1.bridge.verification.x claim (verificationRow + i) ++
    Verification.limbValues system.1.bridge.verification.y claim (verificationRow + i)

/-- The first byte of the serial key in a bridge row. -/
def slotForm (claim : Claim) (i : Nat) : Felt :=
  claim.value system.1.bridge.form (bridgeRow + i)

/-- Whatever is written into the advice columns of the circuit of a spend, in a check without failures the execution region
ends with the fold of at most four keys under the public challenge. The words of these keys have limbs of 32 bits in the rows
of the verified signatures, and their first bytes stand in the bridge rows: each is one of the three forms, and a short one
goes with the parity of its key. -/
theorem keyAcc_eq_fold {s : Spend} {w : Witness} (hbuilt : s.witness system.2 system.1 = .ok w)
    {advice : Array (Vector Felt w.matrix.rows)} {instances : List (List Felt)} {claim : Claim}
    (hmake : Claim.make system.2 (w.withAdvice advice) instances = .ok claim) (hok : claim.failures = .ok []) :
    checkCount claim ≤ maxSignatures ∧
      claim.value system.1.execution.keyAcc lastRow = ∑ i ∈ Finset.range (checkCount claim), publicChallenge claim ^ i *
        Bridge.keyCombination (slotKey claim i) (slotForm claim i ≠ 4) (publicChallenge claim) ∧
      ∀ i, i < checkCount claim →
        (∀ limb ∈ slotLimbs claim i, limb < 2 ^ 32) ∧
        (slotForm claim i = 2 ∨ slotForm claim i = 3 ∨ slotForm claim i = 4) ∧
        (slotForm claim i = 2 → (slotKey claim i).isOdd = false) ∧
        (slotForm claim i = 3 → (slotKey claim i).isOdd = true) := by
  have hover := overwritten_of_built hbuilt hmake
  have haccepted := hover.accepted hok
  have hkey := fun {i} (hi : i < maxSignatures) => haccepted.holdsKey (hover.copied hok) hi
  obtain ⟨hacc, hchecks, hchallenge⟩ := hover.linked hok
  have hrows := haccepted.rows
  obtain ⟨hle, hfold⟩ := hrows.fold (Nat.zero_le _)
  rw [Nat.zero_add] at hle
  have hcount : checkCount claim = (system.1.bridge.rowView claim bridgeRow).checks.toNat := congrArg Felt.toNat hchecks
  have hr : publicChallenge claim = (system.1.bridge.rowView claim bridgeRow).challenge := hchallenge
  rw [hcount, hr, hacc]
  refine ⟨hle, hfold.trans (Finset.sum_congr rfl fun i hi => ?_), fun i hi => ?_⟩
  · have hi := Nat.lt_of_lt_of_le (Finset.mem_range.mp hi) hle
    rw [Nat.zero_add]
    refine congrArg _ ((hkey hi).combination.trans ?_)
    exact congrArg _ (hrows.challenge (Nat.le_of_lt hi))
  · have hholds := hkey (Nat.lt_of_lt_of_le hi hle)
    exact ⟨List.forall_mem_append.mpr ⟨hholds.x_lt, hholds.y_lt⟩, hholds.form, hholds.even, hholds.odd⟩

/-- An accepted circuit of a spend with one signature is bound to one key. -/
theorem keyAcc_eq_fold_generator : ∃ signature w claim,
    (generatorSpend signature).witness system.2 system.1 = .ok w ∧
      Claim.make system.2 (w.withAdvice w.matrix.advice) (generatorSpend signature).publicValues = .ok claim ∧
      claim.failures = .ok [] ∧ checkCount claim = 1 ∧
      claim.value system.1.execution.keyAcc lastRow =
        Bridge.keyCombination (slotKey claim 0) (slotForm claim 0 ≠ 4) (publicChallenge claim) := by
  obtain ⟨signature, trace, keys, h, hverifies, hnone⟩ := generatorSpend_built
  have hbuilt := witness_eq_ok_iff.mpr ⟨trace, keys, signature, h, hverifies, rfl⟩
  have hmake : Claim.make system.2 ((claimOf (generatorSpend signature) trace keys signature).witness.withAdvice
      (claimOf (generatorSpend signature) trace keys signature).witness.matrix.advice)
      (generatorSpend signature).publicValues = .ok (claimOf (generatorSpend signature) trace keys signature) :=
    Built.make_eq
  have hok := h.failures_eq.trans (congrArg Except.ok hnone)
  have hcount : checkCount (claimOf (generatorSpend signature) trace keys signature) = 1 :=
    (congrArg Felt.toNat h.last_values.2).trans (by decide : Felt.toNat (1 : Nat) = 1)
  obtain ⟨-, hfold, -⟩ := keyAcc_eq_fold hbuilt hmake hok
  rw [hcount, Finset.sum_range_one, pow_zero, one_mul] at hfold
  exact ⟨signature, _, _, hbuilt, hmake, hok, hcount, hfold⟩

end ScriptCircuit.Circuit
