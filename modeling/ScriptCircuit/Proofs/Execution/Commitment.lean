import Mathlib
import ScriptCircuit.Proofs.Execution.Completeness
import ScriptCircuit.Proofs.Field.Combination

/-!
# What the public combination of the script is bound to

From its first row to the end of the script the accumulator loses one byte a row, but no gate says what is left of it behind
the last byte. The public combination is therefore that of the script plus a multiple of the accumulator left over, and a
prover is free to choose the latter.
-/

namespace ScriptCircuit.Execution

open Combination

namespace Rows

/-- The accumulator of a row up to the end of the script: the combination of the bytes behind it and what is left over. -/
theorem scriptAcc_eq {V : Nat → View} (h : Rows V) {i : Nat} (hi : i ≤ length V) :
    (V i).scriptAcc = hornerReversed (V 0).challenge ((script V).drop i) +
      (V 0).challenge ^ (length V - i) * (V (length V)).scriptAcc := by
  induction hn : length V - i generalizing i with
  | zero =>
    obtain rfl : i = length V := by omega
    rw [List.drop_eq_nil_of_le (Nat.le_of_eq (length_script V)), pow_zero, one_mul]
    exact (zero_add _).symm
  | succ n ih =>
    have hlt : i < length V := by omega
    have hget : i < (script V).length := by
      rw [length_script]
      exact hlt
    obtain ⟨hstep, hactive⟩ := h.active hlt
    rw [← (hstep.script hactive).1, ih hlt (by omega), List.drop_eq_getElem_cons hget, hornerReversed_cons, getElem_script,
      ← h.opcode_eq (h.lt_maxScriptSize hlt), h.challenge (Nat.le_succ_of_le (h.lt_maxScriptSize hlt)), pow_succ]
    ring

end Rows

/-! ## The accumulator is free -/

/-- A view with another accumulator. -/
def View.withScriptAcc (v : View) (x : Felt) : View :=
  { v with scriptAcc := x }

namespace Rows

/-- Of the accumulator the gates ask only that it loses one byte a row and is zero behind the script. -/
theorem withScriptAcc {V : Nat → View} (h : Rows V) {acc : Nat → Felt}
    (hchain : ∀ i, i < length V → (V (i + 1)).opcode + (V 0).challenge * acc (i + 1) = acc i)
    (hzero : ∀ i, length V < i → acc i = 0) : Rows fun i => (V i).withScriptAcc (acc i) where
  first := ⟨h.first.dataLeft, h.first.lengthLeft, h.first.opens, h.first.keyAcc, h.first.checks, h.first.scriptLeft⟩
  byte i hi := by
    have hstep := h.byte i hi
    exact
      { challenge := hstep.challenge
        script := by
          intro hactive
          refine ⟨?_, (hstep.script hactive).2⟩
          have hbyte := hchain i ((h.scriptLeft_ne_zero hi).mp hactive)
          rw [← h.challenge (Nat.le_succ_of_le hi)] at hbyte
          exact hbyte
        behind := by
          intro hleft
          refine ⟨hzero (i + 1) (Nat.lt_succ_of_le ?_), (hstep.behind hleft).2⟩
          by_contra hlt
          exact (h.scriptLeft_ne_zero hi).mpr (Nat.not_le.mp hlt) hleft
        frozen := hstep.frozen
        pushNumber := hstep.pushNumber
        pushEmpty := hstep.pushEmpty
        nop := hstep.nop
        pushBytes := hstep.pushBytes
        pushData := hstep.pushData
        dataByte := hstep.dataByte
        lengthByte := hstep.lengthByte
        checkSignature := hstep.checkSignature
        accumulators := hstep.accumulators }
  table i hi := (h.table i hi).imp_left fun ⟨byte, hbyte⟩ => ⟨byte, hbyte.opcode, hbyte.enabled, hbyte.indicator⟩
  last := ⟨h.last.challenge, h.last.scriptLeft, h.last.dataLeft, h.last.lengthLeft,
    hzero (maxScriptSize + 1) (Nat.lt_succ_of_le h.length_le), h.last.keyAcc, h.last.checks, h.last.stack⟩

/-- The gates read no view behind the last row. -/
theorem congr {V V' : Nat → View} (h : Rows V) (heq : ∀ i, i < traceRows → V' i = V i) : Rows V' where
  first := by
    rw [heq 0 (Nat.succ_pos _), heq 1 (by decide)]
    exact h.first
  byte i hi := by
    rw [heq i (Nat.lt_succ_of_lt (Nat.lt_succ_of_lt hi)), heq (i + 1) (Nat.succ_lt_succ (Nat.lt_succ_of_lt hi)),
      heq (i + 2) (Nat.succ_lt_succ (Nat.succ_lt_succ hi))]
    exact h.byte i hi
  table i hi := by
    rw [heq (i + 1) (Nat.succ_lt_succ (Nat.lt_succ_of_lt hi))]
    exact h.table i hi
  last := by
    rw [heq maxScriptSize (Nat.lt_succ_of_lt (Nat.lt_succ_self _)), heq (maxScriptSize + 1) (Nat.lt_succ_self _)]
    exact h.last

/-- The accumulators of a script with something left over. -/
def leftOver (V : Nat → View) (x : Felt) (i : Nat) : Felt :=
  if i ≤ length V then
    hornerReversed (V 0).challenge ((script V).drop i) + (V 0).challenge ^ (length V - i) * x
  else 0

/-- Within the script the accumulator combines the bytes left, over the chosen rest. -/
theorem leftOver_of_le {V : Nat → View} (x : Felt) {i : Nat} (hi : i ≤ length V) : leftOver V x i =
    hornerReversed (V 0).challenge ((script V).drop i) + (V 0).challenge ^ (length V - i) * x :=
  if_pos hi

theorem leftOver_of_lt {V : Nat → View} (x : Felt) {i : Nat} (hi : length V < i) : leftOver V x i = 0 :=
  if_neg (Nat.not_le.mpr hi)

/-- Every byte is taken off the accumulator. -/
theorem leftOver_chain {V : Nat → View} (h : Rows V) (x : Felt) {i : Nat} (hi : i < length V) :
    (V (i + 1)).opcode + (V 0).challenge * leftOver V x (i + 1) = leftOver V x i := by
  have hget : i < (script V).length := by
    rw [length_script]
    exact hi
  have hpow : length V - i = length V - (i + 1) + 1 := by omega
  rw [leftOver_of_le x (Nat.succ_le_of_lt hi), leftOver_of_le x (Nat.le_of_lt hi), List.drop_eq_getElem_cons hget,
    hornerReversed_cons, getElem_script, ← h.opcode_eq (h.lt_maxScriptSize hi), hpow, pow_succ]
  ring

end Rows

namespace Columns

/-- The advice columns but the accumulator of the script. -/
def otherColumns (c : Columns) : List Column :=
  [c.challenge, c.opcode] ++ ([c.scriptLeft] ++ c.stack.toList ++
    [c.dataLeft, c.lengthLeft, c.lengthWeight, c.keyAcc, c.checks] ++
    [c.scriptLeftInverse, c.dataLeftInverse, c.lengthLeftInverse, c.lengthLastInverse, c.topInverse] ++ c.indicators.toList)

/-- The other columns are advice columns. -/
theorem otherColumns_subset (c : Columns) : c.otherColumns ⊆ c.adviceColumns := by
  intro column hmem
  change column ∈ [c.challenge, c.opcode] ++ c.scriptAcc :: ([c.scriptLeft] ++ c.stack.toList ++
      [c.dataLeft, c.lengthLeft, c.lengthWeight, c.keyAcc, c.checks] ++
      [c.scriptLeftInverse, c.dataLeftInverse, c.lengthLeftInverse, c.lengthLastInverse, c.topInverse] ++
      c.indicators.toList)
  rcases List.mem_append.mp hmem with hhead | htail
  · exact List.mem_append_left _ hhead
  · exact List.mem_append_right _ (List.mem_cons_of_mem _ htail)

/-- The accumulator is none of the other columns. -/
theorem Proper.scriptAcc_notMem {c : Columns} {sys : System} (hc : c.Proper sys) :
    c.scriptAcc ∉ c.otherColumns ++ c.fixedColumns := by
  have hnodup : ([c.challenge, c.opcode] ++ c.scriptAcc :: ([c.scriptLeft] ++ c.stack.toList ++
      [c.dataLeft, c.lengthLeft, c.lengthWeight, c.keyAcc, c.checks] ++
      [c.scriptLeftInverse, c.dataLeftInverse, c.lengthLeftInverse, c.lengthLastInverse, c.topInverse] ++
      c.indicators.toList)).Nodup := hc.advice_nodup
  rw [List.nodup_middle, List.nodup_cons] at hnodup
  intro hmem
  rcases List.mem_append.mp hmem with hother | hfixed
  · exact hnodup.1 hother
  · exact hc.not_advice hfixed (by simp [adviceColumns])

/-- Another claim holds the same as a claim but for the accumulator of the script. -/
structure Reaccumulated (c : Columns) (claim claim' : Claim) (start : Nat) (acc : Nat → Felt) : Prop where
  height : claim'.rows = claim.rows
  same : ∀ column ∈ c.otherColumns ++ c.fixedColumns, ∀ row, row < claim.rows →
    claim'.value column row = claim.value column row
  scriptAcc : ∀ i, i < traceRows → claim'.value c.scriptAcc (start + i) = acc i

namespace Reaccumulated

variable {c : Columns} {claim claim' : Claim} {start : Nat} {acc : Nat → Felt}
  (h : c.Reaccumulated claim claim' start acc)
include h

/-- The rows differ in the accumulator alone. -/
theorem rowView_eq (hend : start + traceRows ≤ claim.rows) {i : Nat} (hi : i < traceRows) :
    c.rowView claim' (start + i) = (c.rowView claim (start + i)).withScriptAcc (acc i) := by
  have hrow : start + i < claim.rows := Nat.lt_of_lt_of_le (Nat.add_lt_add_left hi start) hend
  have hsame : ∀ column ∈ c.otherColumns, claim'.value column (start + i) = claim.value column (start + i) :=
    fun column hcolumn => h.same column (List.mem_append_left _ hcolumn) _ hrow
  simp only [rowView, view, View.withScriptAcc, View.mk.injEq]
  refine ⟨hsame _ ?_, hsame _ ?_, hsame _ ?_, funext fun k => hsame _ ?_, h.scriptAcc i hi, hsame _ ?_,
    Vector.map_congr_left fun column hcolumn => hsame column ?_, hsame _ ?_, hsame _ ?_, hsame _ ?_, hsame _ ?_, hsame _ ?_⟩
  case refine_4 => cases k <;> simp [otherColumns, Indicators.column, Indicators.toList]
  case refine_6 => simp [otherColumns, hcolumn]
  all_goals simp [otherColumns, Indicators.toList]

/-- The other columns are read as before. -/
theorem read_eq {row : Nat} (hrow : row < claim.rows) {column : Column}
    (hcolumn : column ∈ c.otherColumns ++ c.fixedColumns) : claim'.read row column 0 = claim.read row column 0 := by
  have hrow' : row < claim'.rows := by
    rw [h.height]
    exact hrow
  rw [claim'.read_zero _ hrow', claim.read_zero _ hrow, h.same _ hcolumn _ hrow]

/-- The zero tests do not read the accumulator. -/
theorem exact (hexact : c.Exact claim start) (hplaced : c.Placed claim' start) : c.Exact claim' start := by
  have htest : ∀ {z : IsZero} {row : Nat}, row < claim.rows →
      z.value.eval (claim'.read row) = z.value.eval (claim.read row) → z.inverse ∈ c.otherColumns →
      (z.Exact (claim'.read row) ↔ z.Exact (claim.read row)) := fun hrow hvalue hinverse =>
    IsZero.exact_congr hvalue (h.read_eq hrow (List.mem_append_left _ hinverse))
  have hcur : ∀ {row : Nat}, row < claim.rows → ∀ column ∈ c.otherColumns ++ c.fixedColumns,
      column.cur.eval (claim'.read row) = column.cur.eval (claim.read row) := fun hrow column hcolumn =>
    h.read_eq hrow hcolumn
  refine ⟨hplaced, fun i hi => ?_, fun i hi => ?_⟩
  · have hrow := hexact.row_lt (Nat.succ_lt_succ (Nat.lt_succ_of_lt hi))
    have htested := hexact.tested i hi
    exact
      { scriptRead := (htest hrow (hcur hrow c.scriptLeft (by simp [otherColumns]))
          (by simp [otherColumns, Columns.scriptRead])).mpr htested.scriptRead
        noData := (htest hrow (hcur hrow c.dataLeft (by simp [otherColumns]))
          (by simp [otherColumns, Columns.noData])).mpr htested.noData
        noLength := (htest hrow (hcur hrow c.lengthLeft (by simp [otherColumns]))
          (by simp [otherColumns, Columns.noLength])).mpr htested.noLength
        lastLength := by
          refine (htest hrow ?_ (by simp [otherColumns, Columns.lastLength])).mpr htested.lastLength
          rw [Columns.lastLength, Expr.eval_difference, Expr.eval_difference, hcur hrow c.lengthLeft (by simp [otherColumns])]
          rfl }
  · have hrow := hexact.row_lt (Nat.succ_lt_succ (Nat.lt_succ_of_le hi))
    have htop := hcur hrow c.topSlot (by simp [otherColumns, topSlot])
    have hterminal : c.terminal.eval (claim'.read (start + (i + 1))) = c.terminal.eval (claim.read (start + (i + 1))) := by
      simp only [terminal, IsZero.indicator, Columns.scriptRead, Expr.eval_add, Expr.eval_mul, Expr.eval_difference,
        hcur hrow c.isByte (by simp [fixedColumns]), hcur hrow c.isLast (by simp [fixedColumns]),
        hcur hrow c.scriptLeft (by simp [otherColumns]), hcur hrow c.scriptLeftInverse (by simp [otherColumns])]
      rfl
    rw [hterminal]
    intro hne
    refine (htest hrow ?_ (by simp [otherColumns, topFalse])).mpr (hexact.topTested i hi hne)
    simp only [topFalse, Expr.eval_mul, Expr.eval_difference, htop]
    rfl

/-- An accepted region is accepted with any accumulator that loses one byte a row and is zero behind the script. -/
theorem accepted (haccepted : c.Accepted claim start) (hplaced : c.Placed claim' start)
    (hchain : ∀ i, i < Rows.length (fun i => c.rowView claim (start + i)) →
      (c.rowView claim (start + (i + 1))).opcode + (c.rowView claim start).challenge * acc (i + 1) = acc i)
    (hzero : ∀ i, Rows.length (fun i => c.rowView claim (start + i)) < i → acc i = 0) : c.Accepted claim' start := by
  have hview : ∀ {i}, i < traceRows → c.rowView claim' (start + i) = (c.rowView claim (start + i)).withScriptAcc (acc i) :=
    fun hi => h.rowView_eq haccepted.placed.end_le hi
  have hbyte : ∀ {i}, i < maxScriptSize →
      c.rowView claim' (start + (i + 1)) = (c.rowView claim (start + (i + 1))).withScriptAcc (acc (i + 1)) :=
    fun hi => hview (Nat.succ_lt_succ (Nat.lt_succ_of_lt hi))
  have hrows : Rows fun i => c.rowView claim' (start + i) :=
    (haccepted.rows.withScriptAcc hchain hzero).congr fun i hi => hview hi
  have hlength : Rows.length (fun i => c.rowView claim' (start + i)) = Rows.length (fun i => c.rowView claim (start + i)) := by
    rw [Rows.length, hview (i := 0) (Nat.succ_pos _)]
    rfl
  refine (h.exact haccepted.exact hplaced).accepted hrows (fun i hi => ?_) (fun i hi => ?_) fun i hi hbehind => ?_
  · rw [hbyte hi, h.height]
    exact haccepted.table hi
  · rw [hbyte hi]
    exact haccepted.enabled hi
  · rw [hlength] at hbehind
    rw [hview (Nat.succ_lt_succ (Nat.lt_succ_of_le hi))]
    exact haccepted.topTrue_behind hi hbehind

end Reaccumulated

/-- Replacing the column of the accumulator changes nothing else. -/
theorem Proper.reaccumulated {c : Columns} {sys : System} (hc : c.Proper sys) {claim claim' : Claim} {start : Nat}
    {acc : Nat → Felt} (hend : start + traceRows ≤ claim.rows)
    (hcolumn : claim.witness.matrix.HasColumn c.scriptAcc)
    (hmatrix : claim'.witness.matrix = claim.witness.matrix.withAdvice
      (claim.witness.matrix.replaceColumn c.scriptAcc.index fun row => acc (row - start))) :
    c.Reaccumulated claim claim' start acc := by
  have hacc : c.scriptAcc ∈ c.adviceColumns := by simp [adviceColumns]
  have hkind : c.scriptAcc = ⟨.advice, c.scriptAcc.index⟩ := by
    rw [← (hc.advice_kind _ hacc).1]
  have hindex : c.scriptAcc.index < claim.witness.matrix.advice.size := by
    rw [hkind] at hcolumn
    exact hcolumn
  have hvalue : ∀ column ∈ c.adviceColumns ++ c.fixedColumns, ∀ row, row < claim.rows →
      claim'.value column row = if column = c.scriptAcc then acc (row - start) else claim.value column row := by
    intro column hmem row hrow
    have hpublic : column.kind ≠ .publicInput := by
      rcases List.mem_append.mp hmem with h | h
      · rw [(hc.advice_kind _ h).1]
        decide
      · rw [(hc.fixed_kind _ h).1]
        decide
    rw [Claim.value, if_neg hpublic, Claim.value, if_neg hpublic, hmatrix, Matrix.value_replaceColumn _ _ hindex _ hrow,
      ← hkind]
  refine ⟨by rw [Claim.rows, hmatrix]; rfl, fun column hmem row hrow => ?_, fun i hi => ?_⟩
  · have hne : column ≠ c.scriptAcc := fun heq => hc.scriptAcc_notMem (heq ▸ hmem)
    have hmem' : column ∈ c.adviceColumns ++ c.fixedColumns := by
      rcases List.mem_append.mp hmem with h | h
      · exact List.mem_append_left _ (c.otherColumns_subset h)
      · exact List.mem_append_right _ h
    rw [hvalue column hmem' row hrow, if_neg hne]
  · rw [hvalue _ (List.mem_append_left _ hacc) _ (Nat.lt_of_lt_of_le (Nat.add_lt_add_left hi start) hend), if_pos rfl,
      Nat.add_sub_cancel_left]

end Columns

/-- The check of a region under other advice. -/
theorem Overwritten.failures_eq_nil {claim : Claim} {start : Nat} {L c r : Felt} (h : Overwritten claim start L c r) :
    claim.failures = .ok [] ↔ claim.HasTables ∧ system.1.Accepted claim start ∧
      ∀ copy ∈ system.1.publicCopies start, claim.Agrees copy := by
  rw [claim.failures_eq_nil, h.system_eq, h.copies_eq]
  refine and_congr_right fun _ => ?_
  constructor
  · rintro ⟨hgates, hlookups, hcopies⟩
    exact ⟨⟨h.placed, hgates, hlookups⟩, hcopies⟩
  · rintro ⟨haccepted, hcopies⟩
    exact ⟨haccepted.gates, haccepted.lookups, hcopies⟩

/-- An accepted claim stays accepted when the accumulator is written anew, with the combination it starts with. -/
theorem Overwritten.reaccumulated {claim claim' : Claim} {start : Nat} {L c c' r x : Felt}
    (h : Overwritten claim start L c r) (h' : Overwritten claim' start L c' r) (hok : claim.failures = .ok [])
    (hmatrix : claim'.witness.matrix = claim.witness.matrix.withAdvice
      (claim.witness.matrix.replaceColumn system.1.scriptAcc.index fun row =>
        Rows.leftOver (fun i => system.1.rowView claim (start + i)) x (row - start)))
    (hinstances : claim'.instances.size = claim.instances.size)
    (hx : Rows.leftOver (fun i => system.1.rowView claim (start + i)) x 0 = c') :
    claim'.failures = .ok [] ∧ ∀ column ∈ system.1.otherColumns ++ system.1.fixedColumns, ∀ row, row < claim.rows →
      claim'.value column row = claim.value column row := by
  obtain ⟨htables, haccepted, hcopies⟩ := h.failures_eq_nil.mp hok
  have hrows := haccepted.rows
  have hstart : start < claim.rows := haccepted.placed.row_lt (i := 0) (Nat.succ_pos _)
  have hcolumn : claim.witness.matrix.HasColumn system.1.scriptAcc :=
    (hcopies ⟨⟨system.1.scriptAcc, start⟩, ⟨system.1.publicInput, 1⟩⟩ (by simp [Columns.publicCopies])).1.2
  have hre := Columns.system_proper.reaccumulated haccepted.placed.end_le hcolumn hmatrix
  have hhas : ∀ column, claim'.witness.matrix.HasColumn column ↔ claim.witness.matrix.HasColumn column := by
    intro column
    rw [hmatrix, Matrix.hasColumn_replaceColumn]
  have hcell : ∀ cell, claim.HasCell cell → claim'.HasCell cell := by
    intro cell hcell
    unfold Claim.HasCell at hcell ⊢
    rw [hinstances, hre.height, hhas]
    exact hcell
  have hvalue : ∀ column ∈ system.1.otherColumns, claim'.value column start = claim.value column start :=
    fun column hcolumn => hre.same column (List.mem_append_left _ hcolumn) start hstart
  -- Tables, rows and copy constraints, of which only the accumulator's cell and its public value are new.
  refine ⟨h'.failures_eq_nil.mpr ⟨?_, ?_, ?_⟩, hre.same⟩
  · intro l hl column hcolumn
    rw [h'.system_eq, ← h.system_eq] at hl
    exact (hhas column).mpr (htables l hl column hcolumn)
  · exact hre.accepted haccepted h'.placed (fun i hi => hrows.leftOver_chain x hi) fun i hi => Rows.leftOver_of_lt x hi
  · simp only [Columns.publicCopies, List.forall_mem_cons, List.not_mem_nil, false_implies, implies_true, and_true,
      Claim.Agrees, h.publicValue, h'.publicValue] at hcopies ⊢
    obtain ⟨⟨hleft, hleft', hleftValue⟩, ⟨hacc, hacc', -⟩, hchallenge, hchallenge', hchallengeValue⟩ := hcopies
    refine ⟨⟨hcell _ hleft, hcell _ hleft', ?_⟩, ⟨hcell _ hacc, hcell _ hacc', ?_⟩, hcell _ hchallenge,
      hcell _ hchallenge', ?_⟩
    · rw [hvalue _ (by simp [Columns.otherColumns])]
      exact hleftValue
    · exact (hre.scriptAcc 0 (Nat.succ_pos _)).trans hx
    · rw [hvalue _ (by simp [Columns.otherColumns])]
      exact hchallengeValue

-- Neither the height of the matrix nor its cells are computed here.
attribute [local irreducible] Layouter.rows Matrix.writeAll

section

variable {trace : Trace} {before : List (String × Nat)} {height : Nat} {w : Witness} {cells : Cells} {l : Layouter}
  (hbuilt : (synthesis system.2 system.1 trace before height).run ∅ = .ok ((w, cells), l))
  {advice : Array (Vector Felt w.matrix.rows)} {L c r : Felt} {claim : Claim}
  (hmake : Claim.make system.2 (w.withAdvice advice) [[L, c, r]] = .ok claim) (hok : claim.failures = .ok [])
include hbuilt hmake hok

/-- Where the power of the challenge is not zero, an accepted claim is accepted with any other combination of the script,
when only the accumulator is written anew. -/
theorem combination_free (hpow : r ^ L.toNat ≠ 0) (c' : Felt) :
    ∃ (advice' : Array (Vector Felt w.matrix.rows)) (claim' : Claim),
      Claim.make system.2 (w.withAdvice advice') [[L, c', r]] = .ok claim' ∧ claim'.failures = .ok [] ∧
        ∀ column ∈ system.1.otherColumns ++ system.1.fixedColumns, ∀ row, row < claim.rows →
          claim'.value column row = claim.value column row := by
  have hover := overwritten_of_built hbuilt hmake
  obtain ⟨hlength, -, hchallenge⟩ := hover.publicValues hok
  obtain ⟨-, hlong, hclaim⟩ := Claim.make_eq_ok.mp hmake
  -- What has to be left over for the accumulator to start with the other combination.
  obtain ⟨x, hx⟩ : ∃ x, Rows.leftOver (fun i => system.1.rowView claim (startRow before + i)) x 0 = c' := by
    have hlength' : Rows.length (fun i => system.1.rowView claim (startRow before + i)) = L.toNat :=
      congrArg Felt.toNat hlength
    refine ⟨(c' - hornerReversed r (Rows.script fun i => system.1.rowView claim (startRow before + i))) / r ^ L.toNat, ?_⟩
    rw [Rows.leftOver_of_le _ (Nat.zero_le _), List.drop_zero, Nat.sub_zero, hlength']
    change hornerReversed (system.1.rowView claim (startRow before)).challenge _ +
      (system.1.rowView claim (startRow before)).challenge ^ _ * _ = _
    rw [hchallenge, mul_div_cancel₀ _ hpow]
    exact add_sub_cancel _ _
  let values : Nat → Felt := fun row =>
    Rows.leftOver (fun i => system.1.rowView claim (startRow before + i)) x (row - startRow before)
  have hmake' : ∀ advice', Claim.make system.2 (w.withAdvice advice') [[L, c', r]] =
      .ok ⟨system.2, w.withAdvice advice', #[#[L, c', r]]⟩ := by
    intro advice'
    refine Claim.make_eq_ok.mpr ⟨rfl, fun values hvalues => ?_, rfl⟩
    obtain rfl := List.mem_singleton.mp hvalues
    exact hlong [L, c, r] (List.mem_singleton.mpr rfl)
  have hmade := hmake' ((w.matrix.withAdvice advice).replaceColumn system.1.scriptAcc.index values)
  have hmatrix : claim.witness.matrix = w.matrix.withAdvice advice := by
    rw [hclaim]
    rfl
  have hinstances : claim.instances.size = 1 := by
    rw [hclaim]
    rfl
  refine ⟨_, _, hmade, hover.reaccumulated (overwritten_of_built hbuilt hmade) hok ?_ hinstances.symm hx⟩
  rw [hmatrix]
  rfl

/-- What an accepted claim says of the combination of the script: it is that of the bytes in the region plus a multiple of
the accumulator behind them, and so it is that of the bytes exactly when this multiple vanishes. -/
theorem combination_eq :
    L.toNat ≤ maxScriptSize ∧ ∃ script : List UInt8,
      script.length = L.toNat ∧
      (∀ i byte, script[i]? = some byte →
        (system.1.rowView claim (startRow before + (i + 1))).opcode = .ofByte byte) ∧
      hornerReversed r script = ∑ i : Fin script.length, .ofByte (script.get i) * r ^ (i : Nat) ∧
      c = hornerReversed r script + r ^ L.toNat * (system.1.rowView claim (startRow before + L.toNat)).scriptAcc ∧
      (c = hornerReversed r script ↔
        r ^ L.toNat * (system.1.rowView claim (startRow before + L.toNat)).scriptAcc = 0) := by
  have hover := overwritten_of_built hbuilt hmake
  have hrows := (hover.accepted hok).rows
  obtain ⟨rfl, rfl, rfl⟩ := hover.publicValues hok
  have hacc := hrows.scriptAcc_eq (Nat.zero_le _)
  rw [List.drop_zero, Nat.sub_zero] at hacc
  refine ⟨hrows.length_le, Rows.script _, Rows.length_script _, ?_, hornerReversed_eq_sum _ _, hacc, ?_⟩
  · intro i byte hbyte
    obtain ⟨hi, rfl⟩ := List.getElem?_eq_some_iff.mp hbyte
    rw [Rows.getElem_script]
    rw [Rows.length_script] at hi
    exact hrows.opcode_eq (hrows.lt_maxScriptSize hi)
  · constructor
    · intro heq
      exact add_eq_left.mp (hacc.symm.trans heq)
    · intro hzero
      exact hacc.trans (add_eq_left.mpr hzero)

end

/-- An accepted script of one byte, with its combination. -/
theorem combination_eq_pushNumber :
    ∃ trace w cells l claim, (synthesis system.2 system.1 trace [] traceRows).run ∅ = .ok ((w, cells), l) ∧
      Claim.make system.2 (w.withAdvice w.matrix.advice) [[1, 0x51, 7]] = .ok claim ∧ claim.failures = .ok [] ∧
      ∃ script, script.length = 1 ∧
        0x51 = hornerReversed 7 script + 7 ^ 1 * (system.1.rowView claim 1).scriptAcc := by
  obtain ⟨trace, w, cells, l, claim, hbuilt, hmake, hok⟩ := exists_accepted_pushNumber
  obtain ⟨-, script, hlength, -, -, hcombination, -⟩ := combination_eq hbuilt hmake hok
  exact ⟨trace, w, cells, l, claim, hbuilt, hmake, hok, script, hlength, hcombination⟩

/-- A check does not bind the public combination to the script: the empty script is accepted with the combination 5. -/
theorem combination_eq_script_false :
    ∃ trace w cells l advice claim, (synthesis system.2 system.1 trace [] traceRows).run ∅ = .ok ((w, cells), l) ∧
      Claim.make system.2 (Witness.withAdvice w advice) [[0, 5, 7]] = .ok claim ∧ claim.failures = .ok [] ∧
      ∀ script : List UInt8, script.length = Felt.toNat 0 → hornerReversed 7 script ≠ 5 := by
  have hrun : ∃ trace, Trace.ofStack [] 7 (Stack.empty.push 1) = .ok trace ∧ trace.publicValues = [0, 0, 7] ∧
      traceFailures (startRow []) trace = [] := by
    refine ⟨_, rfl, ?_⟩
    decide +kernel
  obtain ⟨trace, w, cells, l, claim, hbuilt, hmake, hok⟩ := exists_accepted hrun
  obtain ⟨advice, claim', hmake', hok', -⟩ := combination_free hbuilt hmake hok (by decide) 5
  refine ⟨trace, w, cells, l, advice, claim', hbuilt, hmake', hok', fun script hlength => ?_⟩
  obtain rfl := List.eq_nil_of_length_eq_zero hlength
  decide

end ScriptCircuit.Execution
