import Mathlib
import ScriptCircuit.Proofs.Execution.Gates
import ScriptCircuit.Proofs.Field.Polynomial
import ScriptCircuit.Proofs.Script.Prefix

/-!
# Truth of items

A byte string is false when it is a zero or the negative zero of any length. The constraints see one element instead, and
call it false when it is zero or 0x80. False byte strings are these elements under every challenge; a true byte string is one
of them under few challenges only, for its bytes are the coefficients of a polynomial that is neither of the two constants.
-/

namespace ScriptCircuit

open Combination MatrixAux

/-- A fold in order has a constant value for no more challenges than bytes precede the last one, unless these are zero and the
last one is the value. -/
theorem Combination.card_le_of_horner_eq {init : List UInt8} {b : UInt8} {x : Felt}
    (hne : ¬((∀ c ∈ init, c = 0) ∧ .ofByte b = x)) {s : Finset Felt} (hs : ∀ r ∈ s, horner r 0 (init ++ [b]) = x) :
    s.card ≤ init.length := by
  have hconstant : ∀ (r : Felt) n, evalAt r (x :: List.replicate n 0) = x := by
    intro r n
    have hzero : evalAt r (List.replicate n 0) = 0 := by
      induction n with
      | zero => rfl
      | succ n ih => rw [List.replicate_succ, evalAt_cons, ih, mul_zero, add_zero]
    rw [evalAt_cons, hzero, mul_zero, zero_add]
  have hcoefficients : (Felt.ofByte b :: init.reverse.map .ofByte) ≠ x :: List.replicate init.length 0 := by
    intro h
    obtain ⟨hlast, hrest⟩ := List.cons.inj h
    refine hne ⟨fun c hc => ?_, hlast⟩
    have hmem : Felt.ofByte c ∈ List.replicate init.length 0 := by
      rw [← hrest]
      exact List.mem_map_of_mem (List.mem_reverse.mpr hc)
    exact Felt.ofByte_inj.mp ((List.mem_replicate.mp hmem).2.trans rfl)
  have hlength : (Felt.ofByte b :: init.reverse.map .ofByte).length = (x :: List.replicate init.length 0).length := by simp
  have hcard := card_lt_of_evalAt_eq hlength hcoefficients fun r hr => by
    rw [hconstant, ← hs r hr, horner_eq_evalAt, List.reverse_concat, List.map_cons]
  rw [hlength, List.length_cons, List.length_replicate] at hcard
  exact Nat.le_of_lt_succ hcard

/-- A fold of zeros is zero. -/
theorem Combination.horner_eq_zero (r : Felt) {bytes : List UInt8} (h : ∀ c ∈ bytes, c = 0) : horner r 0 bytes = 0 := by
  obtain ⟨n, rfl⟩ : ∃ n, bytes = List.replicate n 0 := ⟨_, List.eq_replicate_of_mem h⟩
  induction n with
  | zero => rfl
  | succ n ih =>
    rw [List.replicate_succ', horner_concat, ih fun c hc => List.eq_of_mem_replicate hc, mul_zero, zero_add]
    rfl

namespace Item

/-- A byte string is false when all its bytes are zero, but that the last one may be the sign bit 0x80. -/
def FalseBytes (bytes : List UInt8) : Prop :=
  (∀ c ∈ bytes.dropLast, c = 0) ∧ ∀ c ∈ bytes.getLast?, c = 0 ∨ c = 0x80

instance (bytes : List UInt8) : Decidable (FalseBytes bytes) :=
  decidable_of_iff (bytes.dropLast.all (· == 0) && bytes.getLast?.all fun c => c == 0 || c == 0x80)
    (by simp [FalseBytes, Option.all_eq_true])

/-- The elements that the constraints take for false. -/
def FalseFelt (x : Felt) : Prop :=
  x = 0 ∨ x = negativeZero

instance (x : Felt) : Decidable (FalseFelt x) :=
  inferInstanceAs (Decidable (_ ∨ _))

theorem falseBytes_concat {init : List UInt8} {b : UInt8} :
    FalseBytes (init ++ [b]) ↔ (∀ c ∈ init, c = 0) ∧ (b = 0 ∨ b = 0x80) := by
  rw [FalseBytes, List.dropLast_concat, List.getLast?_concat]
  simp

/-- The element of a byte that is false is one of the two. -/
theorem falseFelt_ofByte {b : UInt8} : FalseFelt (.ofByte b) ↔ b = 0 ∨ b = 0x80 :=
  or_congr (Felt.ofByte_inj (b := 0)) (Felt.ofByte_inj (b := 0x80))

/-- False byte strings are false elements under every challenge. -/
theorem falseFelt_of_falseBytes {bytes : List UInt8} (h : FalseBytes bytes) (r : Felt) : FalseFelt ((data bytes).toFelt r) := by
  obtain rfl | ⟨init, b, rfl⟩ := List.eq_nil_or_concat' bytes
  · exact .inr rfl
  · obtain ⟨hinit, hb⟩ := falseBytes_concat.mp h
    rw [toFelt_data r (List.concat_ne_nil _ _), horner_concat, horner_eq_zero r hinit, mul_zero, zero_add]
    exact falseFelt_ofByte.mpr hb

/-- A true byte string of `n` bytes is a false element under at most `2 * (n - 1)` challenges. -/
theorem card_le_of_not_falseBytes {bytes : List UInt8} (h : ¬FalseBytes bytes) {s : Finset Felt}
    (hs : ∀ r ∈ s, FalseFelt ((data bytes).toFelt r)) : s.card ≤ 2 * (bytes.length - 1) := by
  obtain rfl | ⟨init, b, rfl⟩ := List.eq_nil_or_concat' bytes
  · exact absurd ⟨nofun, nofun⟩ h
  · -- the challenges for zero and those for 0x80 are counted apart
    have hvalue : ∀ r, (data (init ++ [b])).toFelt r = horner r 0 (init ++ [b]) := fun r => toFelt_data r (List.concat_ne_nil _ _)
    have hfew : ∀ c : UInt8, c = 0 ∨ c = 0x80 → ∀ t : Finset Felt, (∀ r ∈ t, horner r 0 (init ++ [b]) = .ofByte c) →
        t.card ≤ init.length := by
      intro c hc t ht
      refine card_le_of_horner_eq (fun hzero => h (falseBytes_concat.mpr ⟨hzero.1, ?_⟩)) ht
      rwa [Felt.ofByte_inj.mp hzero.2]
    have hzero := hfew 0 (.inl rfl) (s.filter fun r => horner r 0 (init ++ [b]) = 0) fun r hr => (Finset.mem_filter.mp hr).2
    have hnegative := hfew 0x80 (.inr rfl) (s.filter fun r => ¬horner r 0 (init ++ [b]) = 0) fun r hr => by
      obtain ⟨hmem, hne⟩ := Finset.mem_filter.mp hr
      have hfalse := hs r hmem
      rw [hvalue] at hfalse
      exact hfalse.resolve_left hne
    have hsplit := s.card_filter_add_card_filter_not fun r => horner r 0 (init ++ [b]) = 0
    rw [List.length_append, List.length_singleton, Nat.add_sub_cancel]
    omega

end Item

/-- The byte string that an instruction pushes, if it pushes one. -/
def Instruction.pushed? : Instruction → Option (List UInt8)
  | .push data => some data
  | .single opcode =>
    if opcode = 0x00 then some []
    else if 0x51 ≤ opcode ∧ opcode ≤ 0x60 then some [opcode - Opcode.reserved]
    else none

/-- A coded instruction that pushes a byte string pushes the element of this item. -/
theorem Registers.perform_of_pushed {i : Instruction} {bytes data : List UInt8} (hcodes : i.Codes bytes)
    (hpushed : i.pushed? = some data) (r : Felt) (m : Registers) :
    m.perform r i = some { m with stack := m.stack.push ((Item.data data).toFelt r) } := by
  have hpush : ∀ {bytes : List UInt8}, 1 ≤ bytes.length →
      m.perform r (.push bytes) = some { m with stack := m.stack.push ((Item.data bytes).toFelt r) } := by
    intro bytes hpos
    rw [perform, Item.toFelt_data r (List.length_pos_iff.mp hpos)]
  cases hcodes with
  | single hopcode =>
    rw [Instruction.pushed?] at hpushed
    rw [perform]
    split at hpushed
    next hempty =>
      cases hpushed
      rw [if_pos hempty]
      rfl
    next hempty =>
      split at hpushed
      next hnumber =>
        cases hpushed
        rw [if_neg hempty, if_pos hnumber, Item.toFelt_data r (List.cons_ne_nil _ _), horner_singleton,
          State.ofByte_sub_reserved hnumber]
      next => cases hpushed
  | pushBytes hopcode hlength =>
    cases hpushed
    refine hpush ?_
    rw [hlength]
    exact UInt8.le_iff_toNat_le.mp hopcode.1
  | pushData hopcode hpos hlength =>
    cases hpushed
    exact hpush hpos

/-- False byte strings are false elements under every challenge and true ones of `n` bytes under at most `2 * (n - 1)`. Where
a run has ended, the constraints reject exactly a false element on top. The element of a byte string is what every instruction
that pushes it leaves on top: in the row behind the instruction, whatever the script goes on with, and in the last row when
the script ends there. -/
theorem Item.truth_of_toFelt (d : List UInt8) :
    (FalseBytes d → ∀ r, FalseFelt ((data d).toFelt r)) ∧
      (¬FalseBytes d → ∀ s : Finset Felt, (∀ r ∈ s, FalseFelt ((data d).toFelt r)) → s.card ≤ 2 * (d.length - 1)) ∧
      (∀ (c : Execution.Columns) (read : Column → Int → Felt), c.terminal.eval read ≠ 0 →
        (c.topFalse.gate "stack top truthiness" c.terminal).Holds read →
          (¬c.topTrue.Holds read ↔ FalseFelt (c.top.eval read))) ∧
      ∀ (i : Instruction) (bytes : List UInt8), i.Codes bytes → i.pushed? = some d →
        ∀ (before : List UInt8) (is : List Instruction) (r : Felt) (stack : Stack), Decodes before is →
          (∀ rest trace, Trace.ofStack (before ++ bytes ++ rest) r stack = .ok trace →
            ∃ row, trace.rows[(before ++ bytes).length]? = some row ∧ row.stack.top = (data d).toFelt r) ∧
          ∀ trace, Trace.ofStack before r stack = .ok trace → (before ++ bytes).length ≤ 520 →
            ∃ trace', Trace.ofStack (before ++ bytes) r stack = .ok trace' ∧
              trace'.lastRow.stack.top = (data d).toFelt r := by
  refine ⟨falseFelt_of_falseBytes, fun h s => card_le_of_not_falseBytes h, ?_, ?_⟩
  · intro c read hterminal hgate
    rw [Execution.Columns.holds_topTrue ((IsZero.holds_gate_iff hterminal).mp hgate) hterminal, Execution.Columns.eval_top,
      Execution.View.TopTrue, FalseFelt, ← not_or, not_not]
  · intro i bytes hcodes hpushed before is r stack hdecodes
    have hperform := Registers.perform_of_pushed hcodes hpushed r
    refine ⟨fun rest trace htrace => ?_, fun trace htrace hfit => ?_⟩
    · obtain ⟨final, row, hexecute, hrow, hregisters⟩ := Trace.registers_of_prefix htrace (hdecodes.concat hcodes)
      rw [Registers.execute_concat] at hexecute
      obtain ⟨m, -, hfinal⟩ := Option.bind_eq_some_iff.mp hexecute
      rw [hperform m] at hfinal
      obtain rfl := Option.some.inj hfinal
      exact ⟨row, hrow, (congrArg (fun m : Registers => m.stack.top) hregisters).trans (Stack.top_push _ _)⟩
    · obtain ⟨m, trace', htrace', hlast⟩ := Trace.exists_of_concat htrace hdecodes hcodes hperform hfit
      exact ⟨trace', htrace', (congrArg (fun m : Registers => m.stack.top) hlast).trans (Stack.top_push _ _)⟩

/-- A negative zero of two bytes is false under every challenge. The same bytes the other way round are true, so they are
false elements under at most two challenges, and a direct push of them leaves their element on top. -/
theorem Item.truth_of_toFelt_signBit :
    (FalseBytes [0x00, 0x80] ∧ ∀ r, FalseFelt ((data [0x00, 0x80]).toFelt r)) ∧
      (¬FalseBytes [0x80, 0x00] ∧
        ∀ s : Finset Felt, (∀ r ∈ s, FalseFelt ((data [0x80, 0x00]).toFelt r)) → s.card ≤ 2) ∧
      ∃ trace, Trace.ofStack [0x02, 0x80, 0x00] 3 .empty = .ok trace ∧ trace.lastRow.stack.top = 384 := by
  have hfalse : FalseBytes [0x00, 0x80] := by decide
  have htrue : ¬FalseBytes [0x80, 0x00] := by decide
  have hcodes : (Instruction.push [0x80, 0x00]).Codes [0x02, 0x80, 0x00] := .pushBytes (by decide) rfl
  obtain ⟨-, hfew, -, hpush⟩ := truth_of_toFelt [0x80, 0x00]
  obtain ⟨-, hends⟩ := hpush _ _ hcodes rfl [] [] 3 .empty .nil
  obtain ⟨start, hstart, -⟩ := Trace.ofStack_of_finish (r := 3) (by decide : ([] : List UInt8).length ≤ maxScriptSize)
    (State.finish_of_decodes (m := ⟨.empty, 0, 0⟩) .nil rfl)
  obtain ⟨trace, htrace, htop⟩ := hends start hstart (by decide)
  refine ⟨⟨hfalse, (truth_of_toFelt [0x00, 0x80]).1 hfalse⟩, ⟨htrue, hfew htrue⟩, trace, htrace, htop.trans ?_⟩
  decide +kernel

end ScriptCircuit
