import Mathlib
import ScriptCircuit.Execution.Gates
import ScriptCircuit.Proofs.Plonk.Gadget
import ScriptCircuit.Script.Item

/-!
# What the gates of the execution region say

A view is what a row of the region holds, the cells under the zero tests apart. On the row of a script byte, with exact zero
tests, every gate is a statement about the views of three rows that follow each other, and the row is one of four kinds: an
opcode, a data byte, a byte of a length field, or padding behind the script.
-/

namespace ScriptCircuit

/-- The column of a class. -/
def Indicators.column (i : Indicators) : OpcodeClass → Column
  | .pushEmpty => i.pushEmpty
  | .pushNumber => i.pushNumber
  | .pushBytes => i.pushBytes
  | .pushData1 => i.pushData1
  | .pushData2 => i.pushData2
  | .pushData4 => i.pushData4
  | .checkSignature => i.checkSignature

namespace Execution

/-- What a row of the region holds. -/
structure View where
  challenge : Felt
  opcode : Felt
  enabled : Felt
  indicator : OpcodeClass → Felt
  scriptAcc : Felt
  scriptLeft : Felt
  stack : Stack
  dataLeft : Felt
  lengthLeft : Felt
  lengthWeight : Felt
  keyAcc : Felt
  checks : Felt

namespace View

/-- The byte of the row is an opcode. -/
def AtOpcode (v : View) : Prop :=
  v.scriptLeft ≠ 0 ∧ v.dataLeft = 0 ∧ v.lengthLeft = 0

/-- The byte of the row is pushed data. -/
def AtData (v : View) : Prop :=
  v.scriptLeft ≠ 0 ∧ v.dataLeft ≠ 0 ∧ v.lengthLeft = 0

/-- The byte of the row belongs to a length field. -/
def AtLength (v : View) : Prop :=
  v.scriptLeft ≠ 0 ∧ v.lengthLeft ≠ 0

instance (v : View) : Decidable v.AtOpcode := inferInstanceAs (Decidable (_ ∧ _))
instance (v : View) : Decidable v.AtData := inferInstanceAs (Decidable (_ ∧ _))
instance (v : View) : Decidable v.AtLength := inferInstanceAs (Decidable (_ ∧ _))

/-- The indicator of the no-operation: an enabled opcode without a class. -/
def nop (v : View) : Felt :=
  v.enabled - (OpcodeClass.all.map v.indicator).sum

/-- The item below the top: the flag of a signature. -/
def flag (v : View) : Felt :=
  getElem v.stack 1 one_lt_stackDepth

/-- The item on top is neither zero nor the negative zero. -/
def TopTrue (v : View) : Prop :=
  v.stack.top ≠ 0 ∧ v.stack.top ≠ negativeZero

/-- The next row holds an opcode, or lies behind the script. -/
def Opens (next : View) : Prop :=
  next.dataLeft = 0 ∧ next.lengthLeft = 0

end View

namespace Columns

/-- The view of the cells of a row. -/
def view (c : Columns) (cell : Column → Felt) : View where
  challenge := cell c.challenge
  opcode := cell c.opcode
  enabled := cell c.indicators.enabled
  indicator k := cell (c.indicators.column k)
  scriptAcc := cell c.scriptAcc
  scriptLeft := cell c.scriptLeft
  stack := c.stack.map cell
  dataLeft := cell c.dataLeft
  lengthLeft := cell c.lengthLeft
  lengthWeight := cell c.lengthWeight
  keyAcc := cell c.keyAcc
  checks := cell c.checks

end Columns

namespace GatesAux

/-- A stack is another with an item pushed onto it when its top is the item and the other slots are those above. -/
theorem eq_push_iff (s t : Stack) (x : Felt) :
    t = s.push x ↔ t.top = x ∧ ∀ i (h : i + 1 < stackDepth), t[i + 1] = s[i] := by
  constructor
  · rintro rfl
    refine ⟨by simp [Stack.top, Stack.getElem_push], fun i h => ?_⟩
    rw [Stack.getElem_push _ _ _ h, if_neg (Nat.succ_ne_zero i)]
    rfl
  · rintro ⟨htop, hrest⟩
    refine Vector.ext fun i h => ?_
    rw [Stack.getElem_push]
    cases i with
    | zero =>
      rw [if_pos rfl]
      exact htop
    | succ i =>
      rw [if_neg (Nat.succ_ne_zero i)]
      exact hrest i h

/-- A stack is another with its top replaced when its top is the new one and the other slots are the same. -/
theorem eq_setTop_iff (s t : Stack) (x : Felt) :
    t = s.setTop x ↔ t.top = x ∧ ∀ i (h : i < stackDepth), 1 ≤ i → t[i] = s[i] := by
  constructor
  · rintro rfl
    refine ⟨by simp [Stack.top, Stack.setTop], fun i h hi => ?_⟩
    simp [Stack.setTop, Nat.ne_of_lt hi]
  · rintro ⟨htop, hrest⟩
    refine Vector.ext fun i h => ?_
    cases i with
    | zero =>
      rw [Stack.setTop, Vector.getElem_set_self]
      exact htop
    | succ i =>
      rw [Stack.setTop, Vector.getElem_set_ne _ h (Nat.succ_ne_zero i).symm]
      exact hrest (i + 1) h (Nat.succ_pos i)

/-- A stack is another with its two upper items replaced by one when its top is that one, the bottom slot is empty and the
slots between are those below. -/
theorem eq_replace_iff (s t : Stack) (x : Felt) :
    t = s.pop.pop.push x ↔
      t.top = x ∧ getElem t (stackDepth - 1) (by decide) = 0 ∧ ∀ i (h : i + 2 < stackDepth), t[i + 1] = s[i + 2] := by
  rw [eq_push_iff]
  refine and_congr_right fun _ => ?_
  constructor
  · intro h
    refine ⟨(h (stackDepth - 2) (by decide)).trans ?_, fun i hi => (h i (by omega)).trans ?_⟩
    · rw [Stack.getElem_pop, dif_pos (by decide), Stack.getElem_pop, dif_neg (by decide)]
    · rw [Stack.getElem_pop, dif_pos (by omega), Stack.getElem_pop, dif_pos hi]
  · rintro ⟨hbottom, hrest⟩ i hi
    rw [Stack.getElem_pop, dif_pos hi, Stack.getElem_pop]
    by_cases h : i + 1 + 1 < stackDepth
    · rw [dif_pos h]
      exact hrest i h
    · rw [dif_neg h]
      obtain rfl : i = stackDepth - 2 := by
        change i + 1 < 33 at hi
        change ¬i + 1 + 1 < 33 at h
        change i = 33 - 2
        omega
      exact hbottom

end GatesAux

open GatesAux

namespace Columns

variable {c : Columns} {read : Column → Int → Felt}

/-- The view of the row itself. -/
abbrev cur (c : Columns) (read : Column → Int → Felt) : View := c.view (read · 0)

/-- The view of the row before. -/
abbrev prev (c : Columns) (read : Column → Int → Felt) : View := c.view (read · (-1))

/-- The view of the row after. -/
abbrev next (c : Columns) (read : Column → Int → Felt) : View := c.view (read · 1)

/-! ## The stack columns -/

/-- The top of the stack of a view is the cell of the top slot. -/
theorem top_view (c : Columns) (cell : Column → Felt) : (c.view cell).stack.top = cell c.topSlot :=
  Vector.getElem_map cell _

theorem eval_top : c.top.eval read = (c.cur read).stack.top :=
  (c.top_view (read · 0)).symm

theorem eval_topBefore : c.topBefore.eval read = (c.prev read).stack.top :=
  (c.top_view (read · (-1))).symm

/-- The flag a signature check reads lies below the top of the row before. -/
theorem eval_flag : c.flag.eval read = (c.prev read).flag :=
  (Vector.getElem_map (read · (-1)) _).symm

/-- The bottom slot of a row, read by a gate. -/
theorem eval_bottom :
    (c.stack[stackDepth - 1]).cur.eval read = getElem (c.cur read).stack (stackDepth - 1) (by decide) :=
  (Vector.getElem_map (read · 0) _).symm

/-- The slots from a start on are kept, slot by slot. -/
theorem holds_stackUnchanged {name : String} {cond : Expr} {start : Nat} :
    Gate.Holds ⟨name, c.stackUnchanged cond start⟩ read ↔
      (cond.eval read = 0 ∨ ∀ i (h : i < stackDepth), start ≤ i → (c.cur read).stack[i] = (c.prev read).stack[i]) := by
  rw [Gate.Holds, stackUnchanged, List.forall_mem_iff_forall_getElem]
  simp only [List.length_map, List.length_drop, Vector.length_toList, List.getElem_map, List.getElem_drop,
    Vector.getElem_toList, Expr.eval_mul, Expr.eval_sub, ← sub_eq_add_neg, mul_eq_zero, sub_eq_zero, Column.eval_cur,
    Column.eval_prev, view, Vector.getElem_map]
  constructor
  · intro h
    refine or_iff_not_imp_left.mpr fun hcond i hi hstart => ?_
    have hslot := (h (i - start) (by omega)).resolve_left hcond
    simpa only [Nat.add_sub_cancel' hstart] using hslot
  · rintro (hcond | h) i hi
    · exact .inl hcond
    · exact .inr (h (start + i) (by omega) (Nat.le_add_right ..))

/-- Slots from the second on, each bound to a slot of the row before that lies `shift` below the top instead of one: the gate
says so slot by slot, as far as there are slots. -/
theorem holds_zipWith_slots {name : String} {cond : Expr} (shift : Nat) :
    Gate.Holds ⟨name, (c.stack.toList.drop 1).zipWith (fun slot other => cond * (slot.cur - other.prev))
        (c.stack.toList.drop shift)⟩ read ↔
      (cond.eval read = 0 ∨ ∀ i (h : i + 1 < stackDepth) (h' : i + shift < stackDepth),
        (c.cur read).stack[i + 1] = (c.prev read).stack[i + shift]) := by
  rw [Gate.Holds, List.forall_mem_iff_forall_getElem]
  simp only [List.length_zipWith, List.length_drop, Vector.length_toList, List.getElem_zipWith, List.getElem_drop,
    Vector.getElem_toList, Expr.eval_mul, Expr.eval_sub, ← sub_eq_add_neg, mul_eq_zero, sub_eq_zero, Column.eval_cur,
    Column.eval_prev, view, Vector.getElem_map]
  constructor
  · intro h
    refine or_iff_not_imp_left.mpr fun hcond i hi hi' => ?_
    have hslot := (h i (by omega)).resolve_left hcond
    simpa only [Nat.add_comm 1 i, Nat.add_comm shift i] using hslot
  · rintro (hcond | h) i hi
    · exact .inl hcond
    · refine .inr ?_
      have hslot := h i (by omega) (by omega)
      simpa only [Nat.add_comm 1 i, Nat.add_comm shift i] using hslot

/-- The gate of a push binds every slot below the top to the slot above it, a row before. -/
theorem holds_stackPushed {name : String} {cond : Expr} :
    Gate.Holds ⟨name, c.stackPushed cond⟩ read ↔
      (cond.eval read = 0 ∨ ∀ i (h : i + 1 < stackDepth), (c.cur read).stack[i + 1] = (c.prev read).stack[i]) := by
  rw [stackPushed]
  exact (holds_zipWith_slots 0).trans
    (or_congr_right ⟨fun h i hi => h i hi (Nat.lt_of_succ_lt hi), fun h i hi _ => h i hi⟩)

/-- The gate of a signature check binds every slot below the top to the slot below it, a row before. -/
theorem holds_stackPopped {name : String} {cond : Expr} :
    Gate.Holds ⟨name, c.stackPopped cond⟩ read ↔
      (cond.eval read = 0 ∨ ∀ i (h : i + 2 < stackDepth), (c.cur read).stack[i + 1] = (c.prev read).stack[i + 2]) := by
  rw [stackPopped]
  exact (holds_zipWith_slots 2).trans
    (or_congr_right ⟨fun h i hi => h i (Nat.lt_of_succ_lt hi) hi, fun h i _ hi => h i hi⟩)

/-- From the top on, the whole stack is kept. -/
theorem holds_stackKept {name : String} {cond : Expr} :
    Gate.Holds ⟨name, c.stackUnchanged cond 0⟩ read ↔
      (cond.eval read = 0 ∨ (c.cur read).stack = (c.prev read).stack) := by
  rw [holds_stackUnchanged]
  refine or_congr_right ⟨fun h => Vector.ext fun i hi => h i hi (Nat.zero_le i), fun h i hi _ => by rw [h]⟩

/-! ## The kinds of rows -/

/-- The zero tests of the counters are exact. -/
structure Tested (c : Columns) (read : Column → Int → Felt) : Prop where
  scriptRead : c.scriptRead.Exact read
  noData : c.noData.Exact read
  noLength : c.noLength.Exact read
  lastLength : c.lastLength.Exact read

section

variable (hbyte : read c.isByte 0 = 1) (ht : c.Tested read)
include ht

/-- The zero test of the script counter says whether the script has been read. -/
theorem eval_scriptRead : c.scriptRead.indicator.eval read = if (c.cur read).scriptLeft = 0 then 1 else 0 :=
  ht.scriptRead

/-- The factor of active rows says that the script has not been read. -/
theorem eval_active : c.active.eval read = if (c.cur read).scriptLeft = 0 then 0 else 1 := by
  rw [active, Expr.eval_sub, eval_scriptRead ht, Expr.eval_one]
  split <;> ring

/-- The zero test of the data counter says whether data is expected. -/
theorem eval_noData : c.noData.indicator.eval read = if (c.cur read).dataLeft = 0 then 1 else 0 :=
  ht.noData

/-- The zero test of the length counter says whether a length field is being read. -/
theorem eval_noLength : c.noLength.indicator.eval read = if (c.cur read).lengthLeft = 0 then 1 else 0 :=
  ht.noLength

/-- The zero test behind the length counter says whether one byte of a length field is left. -/
theorem eval_lastLength : c.lastLength.indicator.eval read = if (c.cur read).lengthLeft = 1 then 1 else 0 := by
  refine ht.lastLength.trans (if_congr ?_ rfl rfl)
  exact add_neg_eq_zero

include hbyte

/-- The factor of the opcode gates is one on opcodes and zero elsewhere. -/
theorem eval_opcodeRow : c.opcodeRow.eval read = if (c.cur read).AtOpcode then 1 else 0 := by
  rw [opcodeRow, Expr.eval_mul, Expr.eval_mul, Expr.eval_mul, Column.eval_cur, hbyte, eval_active ht, eval_noData ht,
    eval_noLength ht]
  by_cases hscript : (c.cur read).scriptLeft = 0
  · simp [View.AtOpcode, hscript]
  · by_cases hdata : (c.cur read).dataLeft = 0
    · simp [View.AtOpcode, hscript, hdata]
    · simp [View.AtOpcode, hscript, hdata]

/-- A gate of a class is switched on at the opcodes whose indicator is not zero. -/
theorem eval_opcodeCond (e : Expr) :
    (c.opcodeRow * e).eval read ≠ 0 ↔ (c.cur read).AtOpcode ∧ e.eval read ≠ 0 := by
  rw [Expr.eval_mul, eval_opcodeRow hbyte ht]
  by_cases h : (c.cur read).AtOpcode
  · simp [h]
  · simp [h]

/-- A gate of active rows is switched off exactly behind the script. -/
theorem eval_byteActive : (c.isByte.cur * c.active).eval read = 0 ↔ (c.cur read).scriptLeft = 0 := by
  rw [Expr.eval_mul, Column.eval_cur, hbyte, one_mul, eval_active ht]
  split <;> simp_all

/-- A gate of the rows behind the script is switched off exactly within it. -/
theorem eval_byteBehind : (c.isByte.cur * c.scriptRead.indicator).eval read = 0 ↔ (c.cur read).scriptLeft ≠ 0 := by
  rw [Expr.eval_mul, Column.eval_cur, hbyte, one_mul, eval_scriptRead ht]
  split <;> simp_all

/-- Within the script a byte is taken off the accumulator and off the counter; behind it both are zero. -/
theorem holds_scriptByte :
    c.scriptByte.Holds read ↔
      ((c.cur read).scriptLeft ≠ 0 →
        (c.cur read).opcode + (c.cur read).challenge * (c.cur read).scriptAcc = (c.prev read).scriptAcc ∧
          (c.next read).scriptLeft + 1 = (c.cur read).scriptLeft) ∧
      ((c.cur read).scriptLeft = 0 → (c.cur read).scriptAcc = 0 ∧ (c.next read).scriptLeft = 0) := by
  rw [scriptByte]
  simp only [Gate.holds_cons, Gate.holds_nil, and_true, Gate.eval_guarded (c.isByte.cur * _), eval_byteActive hbyte ht,
    eval_byteBehind hbyte ht, Expr.eval_difference, sub_eq_zero]
  constructor
  · rintro ⟨hacc, hleft, hacc', hleft'⟩
    exact ⟨fun h => ⟨hacc.resolve_left h, hleft.resolve_left h⟩,
      fun h => ⟨hacc'.resolve_left (not_not_intro h), hleft'.resolve_left (not_not_intro h)⟩⟩
  · rintro ⟨hactive, hbehind⟩
    by_cases h : (c.cur read).scriptLeft = 0
    · exact ⟨.inl h, .inl h, .inr (hbehind h).1, .inr (hbehind h).2⟩
    · exact ⟨.inr (hactive h).1, .inr (hactive h).2, .inl h, .inl h⟩

/-- Behind the script the row repeats the state of the one before, under a no-operation. -/
theorem holds_frozen :
    c.frozen.Holds read ↔
      ((c.cur read).scriptLeft = 0 →
        (c.cur read).stack = (c.prev read).stack ∧ (c.cur read).opcode = .ofNat 0x61 ∧ (c.cur read).dataLeft = 0 ∧
          (c.cur read).lengthLeft = 0 ∧ (c.cur read).keyAcc = (c.prev read).keyAcc ∧
          (c.cur read).checks = (c.prev read).checks) := by
  rw [frozen]
  simp only [Gate.holds_append, Gate.holds_cons, Gate.holds_nil, and_true, holds_stackKept,
    Gate.eval_guarded (c.isByte.cur * _), eval_byteBehind hbyte ht, Expr.eval_difference, sub_eq_zero, ← or_and_left]
  rw [or_iff_not_imp_left, not_not]
  rfl

/-- Every opcode row holds an enabled opcode. -/
theorem holds_enabledOpcode :
    c.enabledOpcode.Holds read ↔ ((c.cur read).AtOpcode → (c.cur read).enabled = 1) := by
  rw [enabledOpcode, Gate.holds_cons, and_iff_left (Gate.holds_nil.mpr trivial), Gate.eval_guarded,
    Expr.eval_difference, sub_eq_zero, eval_opcodeRow hbyte ht]
  by_cases h : (c.cur read).AtOpcode
  · simp only [h, if_true, one_ne_zero, false_or, true_implies]
    exact eq_comm
  · simp [h]

/-- A gate of an opcode that pushes an item: it binds the stack, and the next row opens anew. -/
theorem holds_pushItem {name : String} {indicator : Column} {item : Expr} :
    Gate.Holds ⟨name, [c.opcodeRow * indicator.cur * (c.top - item)] ++ c.stackPushed (c.opcodeRow * indicator.cur) ++
        c.opcodeNext (c.opcodeRow * indicator.cur)⟩ read ↔
      ((c.cur read).AtOpcode ∧ read indicator 0 ≠ 0 →
        (c.cur read).stack = (c.prev read).stack.push (item.eval read) ∧ (c.next read).Opens) := by
  simp only [Gate.holds_append, Gate.holds_cons, Gate.holds_nil, and_true, holds_stackPushed, opcodeNext, eval_top,
    Gate.eval_guarded (c.opcodeRow * _), Expr.eval_difference, sub_eq_zero, ← or_and_left]
  rw [or_iff_not_imp_left, eq_push_iff]
  exact imp_congr (eval_opcodeCond hbyte ht _) Iff.rfl

/-- The opcode of a small number pushes it, and the next row opens anew. -/
theorem holds_pushNumber :
    c.pushNumber.Holds read ↔
      ((c.cur read).AtOpcode ∧ (c.cur read).indicator .pushNumber ≠ 0 →
        (c.cur read).stack = (c.prev read).stack.push ((c.cur read).opcode - .ofNat 0x50) ∧ (c.next read).Opens) := by
  refine (holds_pushItem hbyte ht).trans ?_
  rw [Expr.eval_difference]
  rfl

/-- The opcode of the empty byte string pushes the negative zero, and the next row opens anew. -/
theorem holds_pushEmpty :
    c.pushEmpty.Holds read ↔
      ((c.cur read).AtOpcode ∧ (c.cur read).indicator .pushEmpty ≠ 0 →
        (c.cur read).stack = (c.prev read).stack.push negativeZero ∧ (c.next read).Opens) :=
  holds_pushItem hbyte ht

omit hbyte ht in
/-- The no-operation, read by a gate, is the indicator of the view. -/
theorem eval_isNop : c.isNop.eval read = (c.cur read).nop := by
  rw [isNop, Expr.eval_difference, Expr.eval_sum_cons]
  simp only [View.nop, OpcodeClass.all, List.map_cons, List.map_nil, List.sum_cons, List.sum_nil, List.foldl_cons,
    List.foldl_nil, add_zero, add_assoc]
  rfl

/-- A no-operation keeps the stack, and the next row opens anew. -/
theorem holds_nop :
    c.nop.Holds read ↔
      ((c.cur read).AtOpcode ∧ (c.cur read).nop ≠ 0 →
        (c.cur read).stack = (c.prev read).stack ∧ (c.next read).Opens) := by
  rw [nop, ← eval_isNop]
  simp only [Gate.holds_append, Gate.holds_cons, Gate.holds_nil, and_true, holds_stackKept, opcodeNext,
    Gate.eval_guarded (c.opcodeRow * _), ← or_and_left]
  rw [or_iff_not_imp_left]
  exact imp_congr (eval_opcodeCond hbyte ht _) Iff.rfl

/-- A gate of an opcode with data behind it: it opens a zero on top, and two more conditions bind the counters. -/
theorem holds_pushOpen {name : String} {indicator : Column} {p q : Expr} :
    Gate.Holds ⟨name, [c.opcodeRow * indicator.cur * c.top, c.opcodeRow * indicator.cur * p, c.opcodeRow * indicator.cur * q] ++
        c.stackPushed (c.opcodeRow * indicator.cur)⟩ read ↔
      ((c.cur read).AtOpcode ∧ read indicator 0 ≠ 0 →
        (c.cur read).stack = (c.prev read).stack.push 0 ∧ p.eval read = 0 ∧ q.eval read = 0) := by
  simp only [Gate.holds_append, Gate.holds_cons, Gate.holds_nil, and_true, holds_stackPushed, eval_top,
    Gate.eval_guarded (c.opcodeRow * _), ← or_and_left]
  rw [or_iff_not_imp_left, eq_push_iff]
  refine imp_congr (eval_opcodeCond hbyte ht _) ?_
  constructor
  · rintro ⟨⟨htop, hp, hq⟩, hrest⟩
    exact ⟨⟨htop, hrest⟩, hp, hq⟩
  · rintro ⟨⟨htop, hrest⟩, hp, hq⟩
    exact ⟨⟨htop, hp, hq⟩, hrest⟩

/-- A direct push opens a zero on top and as many data rows as its opcode says. -/
theorem holds_pushBytes :
    c.pushBytes.Holds read ↔
      ((c.cur read).AtOpcode ∧ (c.cur read).indicator .pushBytes ≠ 0 →
        (c.cur read).stack = (c.prev read).stack.push 0 ∧ (c.next read).dataLeft = (c.cur read).opcode ∧
          (c.next read).lengthLeft = 0) := by
  refine (holds_pushOpen hbyte ht).trans ?_
  rw [Expr.eval_difference, sub_eq_zero]
  rfl

/-- A push with a length field opens a zero on top and as many length rows as the field is wide. -/
theorem holds_pushData {indicator : Column} {width : Nat} :
    (c.pushData indicator width).Holds read ↔
      ((c.cur read).AtOpcode ∧ read indicator 0 ≠ 0 →
        (c.cur read).stack = (c.prev read).stack.push 0 ∧ (c.next read).lengthLeft = .ofNat width ∧
          (c.next read).lengthWeight = 1) := by
  refine (holds_pushOpen hbyte ht).trans ?_
  rw [Expr.eval_difference, Expr.eval_difference, sub_eq_zero, sub_eq_zero]
  rfl

/-- A data byte goes into the item on top, and the counter of data falls by one. -/
theorem holds_dataByte :
    c.dataByte.Holds read ↔
      ((c.cur read).AtData →
        (c.cur read).stack =
            (c.prev read).stack.setTop ((c.cur read).opcode + (c.cur read).challenge * (c.prev read).stack.top) ∧
          (c.next read).dataLeft + 1 = (c.cur read).dataLeft ∧ (c.next read).lengthLeft = 0) := by
  have hcond : (c.isByte.cur * c.active * (1 - c.noData.indicator) * c.noLength.indicator).eval read ≠ 0 ↔
      (c.cur read).AtData := by
    rw [Expr.eval_mul, Expr.eval_mul, Expr.eval_mul, Column.eval_cur, hbyte, one_mul, Expr.eval_difference,
      eval_active ht, eval_noData ht, eval_noLength ht, Expr.eval_one, View.AtData]
    split <;> split <;> split <;> simp_all
  rw [dataByte]
  generalize c.isByte.cur * c.active * (1 - c.noData.indicator) * c.noLength.indicator = cond at hcond ⊢
  simp only [Gate.holds_append, Gate.holds_cons, Gate.holds_nil, and_true, holds_stackUnchanged, eval_top,
    Gate.eval_guarded cond, Expr.eval_difference, sub_eq_zero, ← or_and_left]
  rw [or_iff_not_imp_left, eq_setTop_iff]
  refine imp_congr hcond ?_
  rw [Expr.eval_add, Expr.eval_mul, eval_topBefore]
  constructor
  · rintro ⟨⟨htop, hdata, hlength⟩, hrest⟩
    exact ⟨⟨htop, hrest⟩, hdata, hlength⟩
  · rintro ⟨⟨htop, hrest⟩, hdata, hlength⟩
    exact ⟨⟨htop, hdata, hlength⟩, hrest⟩

/-- A length byte adds its digit to the data counter. The last one closes the field, over data that is left; the others pass a
weight of 256 on. -/
theorem holds_lengthByte :
    c.lengthByte.Holds read ↔
      ((c.cur read).AtLength →
        (c.cur read).dataLeft = (c.cur read).opcode * (c.cur read).lengthWeight + (c.prev read).dataLeft ∧
          (c.next read).lengthLeft + 1 = (c.cur read).lengthLeft ∧
          ((c.cur read).lengthLeft ≠ 1 → (c.next read).lengthWeight = .ofNat 256 * (c.cur read).lengthWeight) ∧
          ((c.cur read).lengthLeft = 1 →
            (c.next read).dataLeft = (c.cur read).dataLeft ∧ (c.cur read).dataLeft ≠ 0) ∧
          (c.cur read).stack = (c.prev read).stack) := by
  have hcond : (c.isByte.cur * c.active * (1 - c.noLength.indicator)).eval read ≠ 0 ↔ (c.cur read).AtLength := by
    rw [Expr.eval_mul, Expr.eval_mul, Column.eval_cur, hbyte, one_mul, Expr.eval_difference, eval_active ht,
      eval_noLength ht, Expr.eval_one, View.AtLength]
    split <;> split <;> simp_all
  have hlast : c.lastLength.indicator.eval read = 0 ↔ (c.cur read).lengthLeft ≠ 1 := by
    rw [eval_lastLength ht]
    split <;> simp_all
  have hmore : (1 : Expr).eval read = c.lastLength.indicator.eval read ↔ (c.cur read).lengthLeft = 1 := by
    rw [Expr.eval_one, eval_lastLength ht]
    split <;> simp_all
  have hdata : c.noData.indicator.eval read = 0 ↔ (c.cur read).dataLeft ≠ 0 := by
    rw [eval_noData ht]
    split <;> simp_all
  rw [lengthByte]
  generalize c.isByte.cur * c.active * (1 - c.noLength.indicator) = cond at hcond ⊢
  simp only [Gate.holds_append, Gate.holds_cons, Gate.holds_nil, and_true, holds_stackKept, Gate.eval_guarded cond,
    Gate.eval_guarded (cond * _), hlast, hmore, hdata, Expr.eval_difference, sub_eq_zero, or_assoc, ← or_and_left]
  rw [or_iff_not_imp_left]
  refine imp_congr hcond ?_
  constructor
  · rintro ⟨⟨hsum, hlength, hweight, hopen⟩, hstack⟩
    exact ⟨hsum, hlength, hweight.resolve_left, fun h => hopen.resolve_left (not_not_intro h), hstack⟩
  · rintro ⟨hsum, hlength, hweight, hopen, hstack⟩
    exact ⟨⟨hsum, hlength, or_iff_not_imp_left.mpr hweight, or_iff_not_imp_left.mpr fun h => hopen (not_not.mp h)⟩,
      hstack⟩

/-- A signature check reads a flag of zero or one below the key, replaces both by the flag, and for a flag of one folds the key
and counts it. -/
theorem holds_checkSignature :
    c.checkSignature.Holds read ↔
      ((c.cur read).AtOpcode ∧ (c.cur read).indicator .checkSignature ≠ 0 →
        ((c.prev read).flag = 0 ∨ (c.prev read).flag = 1) ∧
          (c.cur read).stack = (c.prev read).stack.pop.pop.push (c.prev read).flag ∧
          (c.cur read).keyAcc = (c.prev read).keyAcc +
            (c.prev read).flag * ((c.prev read).keyAcc * ((c.cur read).challenge - 1) + (c.prev read).stack.top) ∧
          (c.cur read).checks = (c.prev read).checks + (c.prev read).flag ∧ (c.next read).Opens) := by
  have hfold : (c.flag * (c.keyAcc.prev * (c.challenge.cur - 1) + c.topBefore)).eval read =
      (c.prev read).flag * ((c.prev read).keyAcc * ((c.cur read).challenge - 1) + (c.prev read).stack.top) := by
    rw [Expr.eval_mul, Expr.eval_add, Expr.eval_mul, Expr.eval_difference, eval_flag, eval_topBefore]
    rfl
  rw [checkSignature]
  simp only [Gate.holds_append, Gate.holds_cons, Gate.holds_nil, and_true, holds_stackPopped, eval_top, eval_flag,
    eval_bottom, Gate.eval_guarded (c.opcodeRow * _), Gate.eval_guarded (c.opcodeRow * _ * _), Expr.eval_difference,
    Expr.eval_add, hfold, sub_eq_zero, or_assoc, ← or_and_left]
  rw [or_iff_not_imp_left, eq_replace_iff]
  refine imp_congr (eval_opcodeCond hbyte ht _) ?_
  constructor
  · rintro ⟨⟨hflag, htop, hkey, hchecks, hbottom, hopens⟩, hrest⟩
    exact ⟨hflag.imp_right Eq.symm, ⟨htop, hbottom, hrest⟩, hkey, sub_eq_iff_eq_add'.mp hchecks, hopens⟩
  · rintro ⟨hflag, ⟨htop, hbottom, hrest⟩, hkey, hchecks, hopens⟩
    exact ⟨⟨hflag.imp_right Eq.symm, htop, hkey, sub_eq_iff_eq_add'.mpr hchecks, hbottom, hopens⟩, hrest⟩

/-- Away from signature checks the fold of the keys and the count are kept. -/
theorem holds_accumulators :
    c.accumulators.Holds read ↔
      (¬((c.cur read).AtOpcode ∧ (c.cur read).indicator .checkSignature = 1) →
        (c.cur read).keyAcc = (c.prev read).keyAcc ∧ (c.cur read).checks = (c.prev read).checks) := by
  have hcond : (c.isByte.cur * (1 - c.opcodeRow * c.indicators.checkSignature.cur)).eval read = 0 ↔
      (c.cur read).AtOpcode ∧ (c.cur read).indicator .checkSignature = 1 := by
    rw [Expr.eval_mul, Column.eval_cur, hbyte, one_mul, Expr.eval_difference, sub_eq_zero, Expr.eval_one, Expr.eval_mul,
      eval_opcodeRow hbyte ht]
    by_cases h : (c.cur read).AtOpcode
    · rw [if_pos h, one_mul, and_iff_right h]
      exact eq_comm
    · simp [h]
  rw [accumulators]
  generalize c.isByte.cur * (1 - c.opcodeRow * c.indicators.checkSignature.cur) = cond at hcond ⊢
  simp only [Gate.holds_cons, Gate.holds_nil, and_true, Gate.eval_guarded cond, Expr.eval_difference, sub_eq_zero,
    ← or_and_left]
  rw [or_iff_not_imp_left, hcond]
  rfl

/-- On a byte row the truth gate is switched on exactly behind the script. -/
theorem eval_terminal_byte (hlast : read c.isLast 0 = 0) :
    c.terminal.eval read = if (c.cur read).scriptLeft = 0 then 1 else 0 := by
  rw [terminal, Expr.eval_add, Expr.eval_mul, Column.eval_cur, Column.eval_cur, hbyte, hlast, one_mul, add_zero,
    eval_scriptRead ht]

end

/-! ## Marks -/

/-- The challenge is kept on byte rows. -/
theorem holds_sameChallenge_byte (hbyte : read c.isByte 0 = 1) (hlast : read c.isLast 0 = 0) :
    c.sameChallenge.Holds read ↔ (c.cur read).challenge = (c.prev read).challenge := by
  simp only [sameChallenge, Gate.holds_cons, Gate.holds_nil, and_true, Expr.eval_mul, Column.eval_cur, hbyte, hlast, one_mul,
    zero_mul, Expr.eval_difference, sub_eq_zero]
  rfl

/-- The challenge is kept on the last row. -/
theorem holds_sameChallenge_last (hbyte : read c.isByte 0 = 0) (hlast : read c.isLast 0 = 1) :
    c.sameChallenge.Holds read ↔ (c.cur read).challenge = (c.prev read).challenge := by
  simp only [sameChallenge, Gate.holds_cons, Gate.holds_nil, and_true, Expr.eval_mul, Column.eval_cur, hbyte, hlast, one_mul,
    zero_mul, true_and, Expr.eval_difference, sub_eq_zero]
  rfl

theorem eval_terminal_last (hbyte : read c.isByte 0 = 0) (hlast : read c.isLast 0 = 1) : c.terminal.eval read = 1 := by
  rw [terminal, Expr.eval_add, Expr.eval_mul, Column.eval_cur, Column.eval_cur, hbyte, hlast, zero_mul, zero_add]

/-- Where the run has ended, the truth gate asks for a true item on top. -/
theorem holds_topTrue (hexact : c.topFalse.Exact read) (hterminal : c.terminal.eval read ≠ 0) :
    c.topTrue.Holds read ↔ (c.cur read).TopTrue := by
  have hvalue : c.topFalse.value.eval read = (c.cur read).stack.top * ((c.cur read).stack.top - negativeZero) := by
    rw [topFalse, Expr.eval_mul, Expr.eval_difference, ← eval_top]
    rfl
  rw [topTrue, Gate.holds_cons, and_iff_left (Gate.holds_nil.mpr trivial), Gate.eval_guarded, hexact, hvalue,
    or_iff_right hterminal, View.TopTrue]
  by_cases h : (c.cur read).stack.top * ((c.cur read).stack.top - negativeZero) = 0
  · rw [if_pos h]
    refine iff_of_false one_ne_zero fun ⟨hzero, hnegative⟩ => ?_
    exact (mul_eq_zero.mp h).elim hzero (hnegative ∘ sub_eq_zero.mp)
  · rw [if_neg h]
    rw [mul_eq_zero, not_or, sub_eq_zero] at h
    exact iff_of_true rfl h

/-- The first row starts the counters and the folds at zero and hands the length of the script on. -/
theorem holds_firstRow (hfirst : read c.isFirst 0 = 1) :
    c.firstRow.Holds read ↔
      (c.cur read).dataLeft = 0 ∧ (c.cur read).lengthLeft = 0 ∧ (c.next read).dataLeft = 0 ∧ (c.next read).lengthLeft = 0 ∧
        (c.cur read).keyAcc = 0 ∧ (c.cur read).checks = 0 ∧ (c.next read).scriptLeft = (c.cur read).scriptLeft := by
  simp only [firstRow, Gate.holds_cons, Gate.holds_nil, and_true, Expr.eval_mul, Column.eval_cur, hfirst, one_mul,
    Expr.eval_difference, sub_eq_zero]
  rfl

/-- The last row has nothing left to read and repeats the state of the one before. -/
theorem holds_lastRow (hlast : read c.isLast 0 = 1) :
    c.lastRow.Holds read ↔
      (c.cur read).scriptLeft = 0 ∧ (c.cur read).dataLeft = 0 ∧ (c.cur read).lengthLeft = 0 ∧ (c.cur read).scriptAcc = 0 ∧
        (c.cur read).keyAcc = (c.prev read).keyAcc ∧ (c.cur read).checks = (c.prev read).checks ∧
        (c.cur read).stack = (c.prev read).stack := by
  have hcond : c.isLast.cur.eval read = 0 ↔ False := by
    rw [Column.eval_cur, hlast]
    exact iff_of_false one_ne_zero id
  simp only [lastRow, Gate.holds_append, Gate.holds_cons, Gate.holds_nil, and_true, holds_stackKept, hcond, false_or,
    Gate.eval_guarded c.isLast.cur, Expr.eval_difference, sub_eq_zero, and_assoc]
  rfl

end Columns

end Execution

end ScriptCircuit
