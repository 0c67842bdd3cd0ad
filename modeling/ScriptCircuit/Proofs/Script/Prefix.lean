import Mathlib
import ScriptCircuit.Proofs.Script.Keys

/-!
# Rows behind whole instructions

A trace shows more than the end of its script: behind every prefix that consists of whole instructions its row shows the
registers to which these instructions lead, whatever the script goes on with. A step that the bytes to come allow is allowed
as well when more of them come, so the states of the prefix on its own are those that the whole script passes through.
-/

namespace ScriptCircuit

open Combination MatrixAux RunAux

/-- A step does the same when more bytes follow. -/
theorem State.Step.mono {s t : State} {byte : UInt8} {left more : Nat} (h : s.Step byte left t) (hle : left ≤ more) :
    s.Step byte more t := by
  cases h with
  | pushEmpty hmode hclass => exact .pushEmpty hmode hclass
  | pushNumber hmode hclass => exact .pushNumber hmode hclass
  | pushBytes hmode hclass hfit => exact .pushBytes hmode hclass (hfit.trans hle)
  | pushData hmode hclass hwidth hfit => exact .pushData hmode hclass hwidth (hfit.trans hle)
  | invalid hmode hclass hflag => exact .invalid hmode hclass hflag
  | valid hmode hclass hflag => exact .valid hmode hclass hflag
  | unclassified hmode hclass => exact .unclassified hmode hclass
  | data hmode => exact .data hmode
  | lastLength hmode hpos hfit => exact .lastLength hmode hpos (hfit.trans hle)
  | length hmode hmore => exact .length hmode hmore

namespace State.Steps

variable {script rest : List UInt8} {states states' : Nat → State}

/-- The states of a prefix are those that the whole script passes through. -/
theorem eq_of_append (h : Steps script states) (h' : Steps (script ++ rest) states') (hzero : states 0 = states' 0) {i : Nat}
    (hi : i ≤ script.length) : states i = states' i := by
  induction i with
  | zero => exact hzero
  | succ i ih =>
    have hstate := ih (Nat.le_of_succ_le hi)
    have hlength : (script ++ rest).length = script.length + rest.length := List.length_append
    have hnext := h' i (by omega)
    rw [List.getElem_append_left hi, ← hstate] at hnext
    have hle : script.length - (i + 1) ≤ (script ++ rest).length - (i + 1) := by omega
    have hmore := next_eq_ok.mpr ((next_eq_ok.mp (h i hi)).mono hle)
    exact Except.ok.inj (hmore.symm.trans hnext)

/-- A run ends in its last state. -/
theorem finish (h : Steps script states) : (states 0).finish script = .ok (states script.length) := by
  induction script generalizing states with
  | nil => rfl
  | cons byte rest ih =>
    obtain ⟨hfirst, hrest⟩ := steps_cons.mp h
    rw [finish_cons, hfirst]
    exact ih hrest

end State.Steps

/-- What ends well has run through states. -/
theorem State.exists_steps_of_finish {s final : State} {script : List UInt8} (h : s.finish script = .ok final) :
    ∃ states : Nat → State, states 0 = s ∧ Steps script states ∧ states script.length = final := by
  rw [← run_map_snd s script (Combination.suffixes s.challenge script).tail] at h
  cases hrun : s.run script (Combination.suffixes s.challenge script).tail with
  | error e =>
    rw [hrun] at h
    cases h
  | ok out =>
    obtain ⟨rows, last⟩ := out
    rw [hrun] at h
    obtain rfl : last = final := Except.ok.inj h
    obtain ⟨states, hzero, hsteps, hlast, -⟩ := run_eq_ok.mp hrun
    exact ⟨states, hzero, hsteps, hlast⟩

/-- Scripts and their instructions are joined together. -/
theorem Decodes.append {script script' : List UInt8} {is js : List Instruction} (h : Decodes script is)
    (h' : Decodes script' js) : Decodes (script ++ script') (is ++ js) := by
  induction h with
  | nil => exact h'
  | cons hcodes _ ih =>
    rw [List.append_assoc, List.cons_append]
    exact .cons hcodes ih

/-- One instruction more is one more at the end of the script. -/
theorem Decodes.concat {script bytes : List UInt8} {is : List Instruction} {i : Instruction} (h : Decodes script is)
    (hcodes : i.Codes bytes) : Decodes (script ++ bytes) (is ++ [i]) := by
  have hlast : Decodes (bytes ++ []) [i] := .cons hcodes .nil
  rw [List.append_nil] at hlast
  exact h.append hlast

/-- The last instruction is performed behind the others. -/
theorem Registers.execute_concat (r : Felt) (m : Registers) (is : List Instruction) (i : Instruction) :
    m.execute r (is ++ [i]) = (m.execute r is).bind fun next => next.perform r i := by
  unfold execute
  rw [List.foldlM_append]
  simp

/-- The instructions of a prefix of a script that ends well can be performed. -/
theorem Decodes.exists_execute {r : Felt} {m : Registers} {script rest : List UInt8} {is : List Instruction} {t : State}
    (hdecodes : Decodes script is) (h : (m.state r).finish (script ++ rest) = .ok t) :
    ∃ final, m.execute r is = some final := by
  induction hdecodes generalizing m with
  | nil => exact ⟨m, rfl⟩
  | @cons i bytes script others hcodes hothers ih =>
    rw [List.append_assoc, State.finish_codes hcodes] at h
    cases hperform : m.perform r i with
    | none =>
      rw [hperform] at h
      cases h
    | some next =>
      rw [hperform] at h
      obtain ⟨final, hexecute⟩ := ih h
      exact ⟨final, Option.bind_eq_some_iff.mpr ⟨next, hperform, hexecute⟩⟩

namespace Trace

variable {script rest : List UInt8} {r : Felt} {stack : Stack}

/-- The row behind a byte shows the registers of the state behind it. -/
theorem registers_rowAt {states : Nat → State} {i : Nat} (hi : i ≤ script.length) :
    (rowAt r script states i).registers = ⟨(states i).stack, (states i).keyAcc, (states i).checks⟩ := by
  unfold rowAt
  cases i with
  | zero => rfl
  | succ i =>
    rw [if_neg (Nat.succ_ne_zero i), dif_pos (show i + 1 - 1 < script.length from hi)]
    rfl

/-- Behind a prefix of whole instructions a trace shows the registers to which these lead. -/
theorem registers_of_prefix {is : List Instruction} {trace : Trace} (htrace : ofStack (script ++ rest) r stack = .ok trace)
    (hdecodes : Decodes script is) :
    ∃ final row, Registers.execute r ⟨stack, 0, 0⟩ is = some final ∧ trace.rows[script.length]? = some row ∧
      row.registers = final := by
  obtain ⟨hfit, states, hzero, hsteps, -, -, -, hrows⟩ := ofStack_eq_ok.mp htrace
  have hlength : (script ++ rest).length = script.length + rest.length := List.length_append
  have hfinish : ((⟨stack, 0, 0⟩ : Registers).state r).finish (script ++ rest) = .ok (states (script ++ rest).length) := by
    have hend := hsteps.finish
    rwa [hzero] at hend
  obtain ⟨final, hexecute⟩ := hdecodes.exists_execute hfinish
  obtain ⟨states', hzero', hsteps', hlast⟩ := State.exists_steps_of_finish (State.finish_of_decodes hdecodes hexecute)
  have hstate : states script.length = final.state r := by
    rw [← hlast]
    exact (hsteps'.eq_of_append hsteps (hzero'.trans hzero.symm) (Nat.le_refl _)).symm
  have hbefore : script.length < traceRows := by
    change script.length < 520 + 2
    change (script ++ rest).length ≤ 520 at hfit
    omega
  refine ⟨final, _, hexecute, hrows _ hbefore, ?_⟩
  rw [registers_rowAt (by omega), hstate]
  rfl

/-- A script that has a trace goes on with every instruction that fits and can always be performed. -/
theorem exists_of_concat {is : List Instruction} {i : Instruction} {bytes : List UInt8} {trace : Trace}
    {effect : Registers → Registers} (htrace : ofStack script r stack = .ok trace) (hdecodes : Decodes script is)
    (hcodes : i.Codes bytes) (hperform : ∀ m : Registers, m.perform r i = some (effect m))
    (hfit : (script ++ bytes).length ≤ maxScriptSize) :
    ∃ m trace', ofStack (script ++ bytes) r stack = .ok trace' ∧ trace'.lastRow.registers = effect m := by
  have hwhole : ofStack (script ++ []) r stack = .ok trace := by rwa [List.append_nil]
  obtain ⟨m, -, hexecute, -⟩ := registers_of_prefix hwhole hdecodes
  have hconcat : Registers.execute r ⟨stack, 0, 0⟩ (is ++ [i]) = some (effect m) := by
    rw [Registers.execute_concat, hexecute]
    exact hperform m
  obtain ⟨trace', htrace', hlast⟩ := ofStack_of_finish hfit (State.finish_of_decodes (hdecodes.concat hcodes) hconcat)
  exact ⟨m, trace', htrace', hlast⟩

end Trace

end ScriptCircuit
