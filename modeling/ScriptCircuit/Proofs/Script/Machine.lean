import Mathlib
import ScriptCircuit.Proofs.Script.Run
import ScriptCircuit.Script.Machine

/-!
# Calls that fail change nothing

Every call on a machine does what the step of the interpreter does, on words instead of numbers: where the step fails the
machine is left as it was, and elsewhere its words are the numbers of the next state. What carries this is that the words of
a push in progress stay far below the bound at which they would wrap, whatever calls have come before.
-/

namespace ScriptCircuit

open RunAux

/-- The words that a phase can have. Between instructions all are zero; in data fewer than 2^32 bytes are to come; in a length
field of one, two or four bytes, of which `j` are read, the weight is 256^j and the length is below it. -/
def Parse.Valid (p : Parse) : Prop :=
  match p.phase with
  | .opcode => p.remaining = 0 ∧ p.decoded = 0 ∧ p.weight = 0
  | .data => 1 ≤ p.remaining.toNat ∧ p.remaining.toNat < 2 ^ 32 ∧ p.decoded = 0 ∧ p.weight = 0
  | .length =>
    1 ≤ p.remaining.toNat ∧
      ∃ j, p.weight.toNat = 256 ^ j ∧ p.decoded.toNat < 256 ^ j ∧ j + p.remaining.toNat ∈ [1, 2, 4]

namespace Machine

/-- The state that a machine stands for. -/
def state (m : Machine) : State where
  challenge := m.challenge
  stack := m.stack
  mode := m.parse.mode
  keyAcc := m.keyAcc
  checks := m.checks.toNat

/-- An action does to a machine what an outcome of the interpreter says. The machine counts keys in a word. -/
inductive Follows (act : Act Unit) (m : Machine) : Except Error State → Prop where
  | fails {e : Error} (hrun : act.run m = .error e m) : Follows act m (.error e)
  | ends {m' : Machine} {s : State} (hrun : act.run m = .ok () m') (hparse : m'.parse.Valid)
      (hstate : m'.state = { s with checks := s.checks % 2 ^ 64 }) : Follows act m (.ok s)

/-- An action that ends in a machine does what the outcome with the state of that machine says. -/
theorem Follows.of_run {act : Act Unit} {m n : Machine} (hrun : act.run m = .ok () n) (hparse : n.parse.Valid) :
    Follows act m (.ok n.state) := by
  refine .ends hrun hparse ?_
  have hmod : n.checks.toNat % 2 ^ 64 = n.checks.toNat := Nat.mod_eq_of_lt n.checks.toNat_lt
  rw [state, hmod]

end Machine

namespace MachineAux

open Machine

variable {m : Machine} {byte : UInt8} {left : UInt64}

/-- The item below the top is there. -/
theorem peek_one (s : Stack) : s.peek 1 = .ok (getElem s 1 one_lt_stackDepth) := by
  rw [Stack.peek, Vector.getElem?_eq_getElem one_lt_stackDepth]
  rfl

theorem run_liftExcept (x : Felt) : (checkSignature.liftExcept (.ok x)).run m = .ok x m := rfl

/-- A signature check reads the flag below the key before it changes anything. -/
theorem run_checkSignature (m : Machine) :
    checkSignature.run m =
      let flag := getElem m.stack 1 one_lt_stackDepth
      if flag ≠ 0 ∧ flag ≠ 1 then .error (.signatureFlag flag) m
      else .ok () { m with
        stack := m.stack.pop.pop.push flag
        keyAcc := if flag = 1 then m.keyAcc * m.challenge + m.stack.top else m.keyAcc
        checks := if flag = 1 then m.checks + 1 else m.checks } := by
  unfold checkSignature
  simp only [EStateM.run_bind, EStateM.run_get, peek_one, run_liftExcept]
  generalize getElem m.stack 1 one_lt_stackDepth = flag
  by_cases hbad : flag ≠ 0 ∧ flag ≠ 1
  · rw [if_pos hbad, if_pos hbad]
    rfl
  · rw [if_neg hbad, if_neg hbad]
    by_cases hone : flag = 1
    · simp only [if_pos hone]
      rfl
    · simp only [if_neg hone]
      rfl

/-- A word that counts bytes of a push is compared as a number. -/
theorem word_le {a b : UInt64} : ¬a > b ↔ ¬a.toNat > b.toNat :=
  not_congr UInt64.lt_iff_toNat_lt

/-- A signature check of the machine is one of the run. -/
theorem follows_checkSignature (hm : m.parse.Valid) : Follows checkSignature m m.state.checkSignature := by
  have hrun := run_checkSignature m
  unfold State.checkSignature
  dsimp only [state] at hrun ⊢
  generalize getElem m.stack 1 one_lt_stackDepth = flag at hrun ⊢
  by_cases hzero : flag = 0
  · subst hzero
    have hne : (0 : Felt) ≠ 1 := by decide
    rw [if_pos rfl]
    rw [if_neg (fun h => h.1 rfl), if_neg hne, if_neg hne] at hrun
    exact .of_run (n := { m with stack := m.stack.pop.pop.push 0 }) hrun hm
  · rw [if_neg hzero]
    by_cases hone : flag = 1
    · subst hone
      rw [if_neg (fun h => h.2 rfl), if_pos rfl, if_pos rfl] at hrun
      refine .ends hrun hm ?_
      rw [state, UInt64.toNat_add]
      rfl
    · rw [if_neg hone]
      exact .fails (hrun.trans (if_pos ⟨hzero, hone⟩))

/-- Opening a length field on the machine is doing so in the run. -/
theorem follows_openLength {opcode : UInt8} {width : UInt64} (hwidth : width.toNat ∈ [1, 2, 4]) :
    Follows (openLength opcode width left) m (m.state.openLength opcode width.toNat left.toNat) := by
  unfold State.openLength openLength
  by_cases hlong : width > left
  · rw [if_pos hlong, if_pos (UInt64.lt_iff_toNat_lt.mp hlong)]
    exact .fails rfl
  · rw [if_neg hlong, if_neg (word_le.mp hlong)]
    have hpos : 1 ≤ width.toNat := by
      simp only [List.mem_cons, List.not_mem_nil, or_false] at hwidth
      omega
    exact .of_run (n := { m with stack := m.stack.push 0, parse := .lengthField width }) rfl
      ⟨hpos, 0, rfl, Nat.one_pos, (Nat.zero_add width.toNat).symm ▸ hwidth⟩

/-- An opcode does on the machine what it does in the run. -/
theorem follows_execute (hm : m.parse.Valid) :
    Follows (execute byte left) m (m.state.execute byte left.toNat) := by
  unfold State.execute execute
  cases hclass : Opcode.class? byte with
  | none => exact .of_run rfl hm
  | some k =>
    cases k with
    | pushEmpty => exact .of_run (n := { m with stack := m.stack.push negativeZero }) rfl hm
    | pushNumber => exact .of_run (n := { m with stack := m.stack.push (.ofByte (byte - Opcode.reserved)) }) rfl hm
    | pushBytes =>
      by_cases hlong : byte.toUInt64 > left
      · have hfail := UInt64.lt_iff_toNat_lt.mp hlong
        rw [UInt8.toNat_toUInt64] at hfail
        simp only [if_pos hlong, if_pos (show byte.toNat > left.toNat from hfail)]
        exact .fails rfl
      · have hfit := word_le.mp hlong
        rw [UInt8.toNat_toUInt64] at hfit
        simp only [if_neg hlong, if_neg hfit]
        have hzero : byte.toNat ≠ 0 := fun hzero => by
          obtain rfl : byte = 0 := UInt8.toNat_inj.mp hzero
          exact absurd hclass (by decide)
        have hlt := byte.toNat_lt
        have hparse : (Parse.fixedPush byte.toUInt64).Valid := by
          refine ⟨?_, ?_, rfl, rfl⟩
          · change 1 ≤ byte.toUInt64.toNat
            rw [UInt8.toNat_toUInt64]
            omega
          · change byte.toUInt64.toNat < 2 ^ 32
            rw [UInt8.toNat_toUInt64]
            omega
        let pushed : Machine := { m with stack := m.stack.push 0, parse := .fixedPush byte.toUInt64 }
        have hfollows : Follows (do push 0; expect (.fixedPush byte.toUInt64)) m (.ok pushed.state) :=
          .of_run rfl hparse
        exact hfollows
    | pushData1 => exact follows_openLength (by decide)
    | pushData2 => exact follows_openLength (by decide)
    | pushData4 => exact follows_openLength (by decide)
    | checkSignature => exact follows_checkSignature hm

/-- The words of a length field of which `j` bytes are read: no sum or product of them wraps. -/
structure Field (m : Machine) (byte : UInt8) (j : Nat) : Prop where
  width : j + m.parse.remaining.toNat ∈ [1, 2, 4]
  weight : m.parse.weight.toNat = 256 ^ j
  small : m.parse.weight.toNat * 256 ≤ 2 ^ 32
  length : (m.lengthWith byte).toNat = m.parse.decoded.toNat + byte.toNat * m.parse.weight.toNat
  below : m.parse.decoded.toNat + byte.toNat * m.parse.weight.toNat < m.parse.weight.toNat * 256

/-- Where a length field is being read its words describe one of at most four bytes. -/
theorem exists_field (byte : UInt8) (hphase : m.parse.phase = .length) (hm : m.parse.Valid) : ∃ j, Field m byte j := by
  unfold Parse.Valid at hm
  rw [hphase] at hm
  obtain ⟨hpos, j, hweight, hdecoded, hwidth⟩ := hm
  have hj : j ≤ 3 := by
    simp only [List.mem_cons, List.not_mem_nil, or_false] at hwidth
    omega
  have hbelow := decoded_lt byte (hweight ▸ hdecoded)
  have hsmall : m.parse.weight.toNat * 256 ≤ 2 ^ 32 := by
    calc m.parse.weight.toNat * 256 = 256 ^ (j + 1) := by rw [hweight, Nat.pow_succ]
      _ ≤ 256 ^ 4 := Nat.pow_le_pow_right (by decide) (Nat.succ_le_succ hj)
      _ = 2 ^ 32 := by decide
  refine ⟨j, hwidth, hweight, hsmall, ?_, hbelow⟩
  rw [lengthWith, UInt64.toNat_add, UInt64.toNat_mul, UInt8.toNat_toUInt64,
    Nat.mod_eq_of_lt (a := byte.toNat * m.parse.weight.toNat) (by omega), Nat.mod_eq_of_lt (by omega)]

theorem toNat_sub_one {a : UInt64} (h : 1 ≤ a.toNat) : (a - 1).toNat = a.toNat - 1 :=
  UInt64.toNat_sub_of_le _ _ (UInt64.le_iff_toNat_le.mpr h)

theorem eq_one_iff {a : UInt64} : a = 1 ↔ a.toNat = 1 :=
  UInt64.toNat_inj.symm

/-- A data byte goes into the item on top. -/
theorem run_appendData (m : Machine) (byte : UInt8) :
    (appendData byte).run m = .ok () { m with
      stack := m.stack.setTop (.ofByte byte + m.challenge * m.stack.top)
      parse := if m.parse.remaining = 1 then .idle else { m.parse with remaining := m.parse.remaining - 1 } } := by
  unfold appendData
  simp only [EStateM.run_bind, EStateM.run_modify, EStateM.run_get]
  by_cases hlast : m.parse.remaining = 1
  · rw [if_pos hlast, if_pos hlast]
    rfl
  · rw [if_neg hlast, if_neg hlast]
    rfl

/-- A data byte does on the machine what it does in the run. -/
theorem follows_appendData (hphase : m.parse.phase = .data) (hm : m.parse.Valid) :
    Follows (appendData byte) m (.ok (m.state.appendData byte m.parse.remaining.toNat)) := by
  unfold Parse.Valid at hm
  rw [hphase] at hm
  obtain ⟨hpos, hlt, hdecoded, hweight⟩ := hm
  have hrun := run_appendData m byte
  unfold State.appendData
  by_cases hlast : m.parse.remaining = 1
  · rw [if_pos hlast] at hrun
    rw [if_pos (eq_one_iff.mp hlast)]
    exact .of_run hrun ⟨rfl, rfl, rfl⟩
  · have hmore := mt eq_one_iff.mpr hlast
    rw [if_neg hlast] at hrun
    dsimp only at hrun
    rw [hphase, hdecoded, hweight] at hrun
    rw [if_neg hmore, ← toNat_sub_one hpos]
    refine .of_run hrun ⟨?_, ?_, rfl, rfl⟩
    · change 1 ≤ (m.parse.remaining - 1).toNat
      rw [toNat_sub_one hpos]
      omega
    · change (m.parse.remaining - 1).toNat < 2 ^ 32
      rw [toNat_sub_one hpos]
      omega

/-- A length byte adds its digit, and the last one opens the data or is refused. -/
theorem run_takeLength (m : Machine) (byte : UInt8) (left : UInt64) :
    (takeLength byte left).run m =
      if m.parse.remaining = 1 then
        if m.lengthWith byte = 0 then .error .zeroLengthPush m
        else if m.lengthWith byte > left then .error (.dataOverrun (m.lengthWith byte).toNat left.toNat) m
        else .ok () { m with parse := .fixedPush (m.lengthWith byte) }
      else .ok () { m with parse := { m.parse with
        decoded := m.lengthWith byte
        weight := m.parse.weight * 256
        remaining := m.parse.remaining - 1 } } := by
  unfold takeLength
  simp only [EStateM.run_bind, EStateM.run_get]
  by_cases hlast : m.parse.remaining = 1
  · rw [if_pos hlast, if_pos hlast]
    by_cases hzero : m.lengthWith byte = 0
    · rw [if_pos hzero, if_pos hzero]
      rfl
    · rw [if_neg hzero, if_neg hzero]
      by_cases hlong : m.lengthWith byte > left
      · simp only [if_pos hlong]
        rfl
      · simp only [if_neg hlong]
        rfl
  · rw [if_neg hlast, if_neg hlast]
    rfl

/-- The weight of the next byte of a length field, when there is one. -/
theorem toNat_weight {j : Nat} (hfield : Field m byte j) :
    (m.parse.weight * 256).toNat = m.parse.weight.toNat * 256 := by
  have hsmall := hfield.small
  rw [UInt64.toNat_mul]
  exact Nat.mod_eq_of_lt (by simp only [UInt64.reduceToNat]; omega)

/-- Inside a push there are bytes to come. -/
theorem one_le_remaining (hphase : m.parse.phase ≠ .opcode) (hm : m.parse.Valid) : 1 ≤ m.parse.remaining.toNat := by
  unfold Parse.Valid at hm
  split at hm
  next hidle => exact absurd hidle hphase
  next => exact hm.1
  next => exact hm.1

/-- A byte of a length field that is not its last leaves a valid parse, with one byte of the field less to come. -/
theorem valid_moreLength (hphase : m.parse.phase = .length) (hm : m.parse.Valid) (hlast : m.parse.remaining ≠ 1) :
    Parse.Valid { m.parse with
      phase := .length
      decoded := m.lengthWith byte
      weight := m.parse.weight * 256
      remaining := m.parse.remaining - 1 } := by
  obtain ⟨j, hfield⟩ := exists_field byte hphase hm
  have hpos := one_le_remaining (by rw [hphase]; nofun) hm
  have hmore := mt eq_one_iff.mpr hlast
  refine ⟨?_, j + 1, ?_, ?_, ?_⟩
  · change 1 ≤ (m.parse.remaining - 1).toNat
    rw [toNat_sub_one hpos]
    omega
  · change (m.parse.weight * 256).toNat = 256 ^ (j + 1)
    rw [toNat_weight hfield, hfield.weight, Nat.pow_succ]
  · change (m.lengthWith byte).toNat < 256 ^ (j + 1)
    rw [hfield.length, Nat.pow_succ, ← hfield.weight]
    exact hfield.below
  · change j + 1 + (m.parse.remaining - 1).toNat ∈ [1, 2, 4]
    rw [toNat_sub_one hpos, Nat.add_assoc, Nat.add_sub_cancel' hpos]
    exact hfield.width

/-- A length byte does on the machine what it does in the run. -/
theorem follows_takeLength (hphase : m.parse.phase = .length) (hm : m.parse.Valid) :
    Follows (takeLength byte left) m (m.state.takeLength byte m.parse.remaining.toNat m.parse.decoded.toNat
      m.parse.weight.toNat left.toNat) := by
  obtain ⟨j, hfield⟩ := exists_field byte hphase hm
  have hrun := run_takeLength m byte left
  have hlt : (m.lengthWith byte).toNat < 2 ^ 32 := by
    rw [hfield.length]
    exact Nat.lt_of_lt_of_le hfield.below hfield.small
  unfold State.takeLength
  rw [← hfield.length]
  by_cases hlast : m.parse.remaining = 1
  · rw [if_pos hlast] at hrun
    simp only [if_pos (eq_one_iff.mp hlast)]
    by_cases hzero : m.lengthWith byte = 0
    · rw [if_pos hzero] at hrun
      rw [if_pos (show (m.lengthWith byte).toNat = 0 from congrArg UInt64.toNat hzero)]
      exact .fails hrun
    · have hpos : (m.lengthWith byte).toNat ≠ 0 := fun h => hzero (UInt64.toNat_inj.mp h)
      rw [if_neg hzero] at hrun
      rw [if_neg hpos]
      by_cases hlong : m.lengthWith byte > left
      · rw [if_pos hlong] at hrun
        rw [if_pos (UInt64.lt_iff_toNat_lt.mp hlong)]
        exact .fails hrun
      · rw [if_neg hlong] at hrun
        rw [if_neg (word_le.mp hlong)]
        exact .of_run hrun ⟨Nat.pos_of_ne_zero hpos, hlt, rfl, rfl⟩
  · rw [if_neg hlast] at hrun
    dsimp only at hrun
    rw [hphase] at hrun
    simp only [if_neg (mt eq_one_iff.mpr hlast)]
    rw [← toNat_sub_one (one_le_remaining (by rw [hphase]; nofun) hm), ← toNat_weight hfield]
    exact .of_run hrun (valid_moreLength hphase hm hlast)

/-- Applying a byte does what the next state of the interpreter says. -/
theorem follows_apply (hm : m.parse.Valid) (byte : UInt8) (left : UInt64) :
    Follows (apply byte left) m (m.state.next byte left.toNat) := by
  have hrun : ∀ act : Act Unit, (apply byte left).run m = act.run m → ∀ out, Follows act m out →
      Follows (apply byte left) m out := by
    rintro act hact out (hfails | ⟨hends, hparse, hstate⟩)
    · exact .fails (hact.trans hfails)
    · exact .ends (hact.trans hends) hparse hstate
  unfold State.next
  cases hphase : m.parse.phase with
  | opcode =>
    have hmode : m.state.mode = .opcode := by rw [state, Parse.mode, hphase]
    rw [hmode]
    exact hrun _ (by rw [apply, EStateM.run_bind, EStateM.run_get]; simp only [hphase]) _ (follows_execute hm)
  | data =>
    have hmode : m.state.mode = .data m.parse.remaining.toNat := by rw [state, Parse.mode, hphase]
    rw [hmode]
    exact hrun _ (by rw [apply, EStateM.run_bind, EStateM.run_get]; simp only [hphase]) _ (follows_appendData hphase hm)
  | length =>
    have hmode : m.state.mode = .length m.parse.remaining.toNat m.parse.decoded.toNat m.parse.weight.toNat := by
      rw [state, Parse.mode, hphase]
    rw [hmode]
    exact hrun _ (by rw [apply, EStateM.run_bind, EStateM.run_get]; simp only [hphase]) _ (follows_takeLength hphase hm)

/-- The row on words is the row on numbers. -/
theorem row_eq (hm : m.parse.Valid) (n : Machine) : row m n byte = m.state.row n.state byte := by
  cases hphase : m.parse.phase with
  | opcode | data => simp only [row, State.row, state, Parse.mode, hphase, Mode.weight]
  | length =>
    obtain ⟨j, hfield⟩ := exists_field byte hphase hm
    simp only [row, State.row, state, Parse.mode, hphase, Mode.weight, hfield.length]

end MachineAux

open MachineAux

namespace Machine

variable {m : Machine} {byte : UInt8} {left : UInt64}

/-- A call either fails as the step fails, and leaves the machine as it was, or ends in a machine for the state after the step,
with the row of the step. -/
theorem step_cases (hm : m.parse.Valid) (byte : UInt8) (left : UInt64) :
    (∃ e, m.state.step byte left.toNat = .error e ∧ (step byte left).run m = .error e m) ∨
      ∃ s n, m.state.next byte left.toNat = .ok s ∧ (step byte left).run m = .ok (m.state.row n.state byte) n ∧
        n.parse.Valid ∧ n.state = { s with checks := s.checks % 2 ^ 64 } := by
  have happly := follows_apply hm byte left
  have hrun : (step byte left).run m =
      match (apply byte left).run m with
      | .ok _ n => .ok (row m n byte) n
      | .error e n => .error e n := by
    rw [step, EStateM.run_bind, EStateM.run_get]
    simp only [EStateM.run_bind]
    cases (apply byte left).run m <;> rfl
  cases hnext : m.state.next byte left.toNat with
  | error e =>
    rw [hnext] at happly
    obtain ⟨hfails⟩ := happly
    rw [hfails] at hrun
    exact .inl ⟨e, by rw [State.step, hnext]; rfl, hrun⟩
  | ok s =>
    rw [hnext] at happly
    obtain _ | ⟨hends, hparse, hstate⟩ := happly
    rw [hends] at hrun
    exact .inr ⟨s, _, rfl, hrun.trans (congrArg (EStateM.Result.ok · _) (row_eq hm _)), hparse, hstate⟩

/-- No difference, product or sum of the words of a machine wraps when it takes a byte. -/
structure NoWrap (m : Machine) (byte : UInt8) : Prop where
  number : Opcode.class? byte = some .pushNumber → Opcode.reserved ≤ byte
  remaining : m.parse.phase ≠ .opcode → 1 ≤ m.parse.remaining.toNat
  product : m.parse.phase = .length → byte.toNat * m.parse.weight.toNat < 2 ^ 64
  decoded : m.parse.phase = .length → m.parse.decoded.toNat + byte.toNat * m.parse.weight.toNat < 2 ^ 64
  weight : m.parse.phase = .length → m.parse.weight.toNat * 256 < 2 ^ 64

/-- In a valid state no word of the machine wraps. -/
theorem noWrap (hm : m.parse.Valid) : m.NoWrap byte := by
  have hsum (hphase : m.parse.phase = .length) : m.parse.decoded.toNat + byte.toNat * m.parse.weight.toNat < 2 ^ 32 := by
    obtain ⟨j, hfield⟩ := exists_field byte hphase hm
    exact Nat.lt_of_lt_of_le hfield.below hfield.small
  refine ⟨?_, ?_, fun hphase => ?_, fun hphase => ?_, fun hphase => ?_⟩
  · exact Opcode.reserved_le
  · exact fun hphase => one_le_remaining hphase hm
  · have := hsum hphase
    omega
  · have := hsum hphase
    omega
  · obtain ⟨j, hfield⟩ := exists_field byte hphase hm
    have := hfield.small
    omega

/-- A byte adds at most one signature check. -/
theorem checks_le_of_next {s t : State} {left : Nat} (h : s.next byte left = .ok t) : t.checks ≤ s.checks + 1 := by
  cases State.next_eq_ok.mp h with
  | valid => exact Nat.le_refl _
  | pushEmpty | pushNumber | pushBytes | pushData | invalid | unclassified | data | lastLength | length =>
    exact Nat.le_succ _

/-- Calls keep the words of a push valid and count at most one key each. -/
theorem after_valid (hm : m.parse.Valid) (calls : List (UInt8 × UInt64)) :
    (m.after calls).parse.Valid ∧ (m.after calls).checks.toNat ≤ m.checks.toNat + calls.length := by
  induction calls generalizing m with
  | nil => exact ⟨hm, Nat.le_refl _⟩
  | cons call calls ih =>
    have hafter : m.after (call :: calls) = (leaves ((step call.1 call.2).run m)).after calls := rfl
    rw [hafter, List.length_cons]
    obtain ⟨e, -, hrun⟩ | ⟨s, n, hnext, hrun, hparse, hstate⟩ := step_cases hm call.1 call.2
    · obtain ⟨hvalid, hchecks⟩ := ih hm
      rw [hrun]
      exact ⟨hvalid, Nat.le_succ_of_le hchecks⟩
    · obtain ⟨hvalid, hchecks⟩ := ih hparse
      have hcount : n.checks.toNat ≤ m.checks.toNat + 1 := by
        calc n.checks.toNat = s.checks % 2 ^ 64 := congrArg State.checks hstate
          _ ≤ s.checks := Nat.mod_le ..
          _ ≤ m.checks.toNat + 1 := checks_le_of_next hnext
      rw [hrun]
      exact ⟨hvalid, by change (n.after calls).checks.toNat ≤ _; omega⟩

/-- Whatever calls a machine has taken, failing ones included: a call that fails leaves it exactly as it was, and fails as the
step of the interpreter does; the words of a push are valid, so no word wraps in a call; and the count of keys is at most the
number of calls, below which a call that succeeds does on words what the step does on numbers. -/
theorem call_atomic (challenge : Felt) (stack : Stack) (calls : List (UInt8 × UInt64)) (byte : UInt8) (left : UInt64) :
    let m := (initial challenge stack).after calls
    (∀ e n, (step byte left).run m = .error e n → n = m ∧ m.state.step byte left.toNat = .error e) ∧
      m.parse.Valid ∧ m.NoWrap byte ∧ m.checks.toNat ≤ calls.length ∧
      (calls.length + 1 < 2 ^ 64 → ∀ row n, (step byte left).run m = .ok row n →
        m.state.step byte left.toNat = .ok (row, n.state)) := by
  intro m
  have hidle : (initial challenge stack).parse.Valid := ⟨rfl, rfl, rfl⟩
  obtain ⟨hvalid, hchecks⟩ : m.parse.Valid ∧ m.checks.toNat ≤ 0 + calls.length := after_valid hidle calls
  rw [Nat.zero_add] at hchecks
  refine ⟨?_, hvalid, noWrap hvalid, hchecks, ?_⟩
  · intro e n hrun
    obtain ⟨e', hstep, hfails⟩ | ⟨s, n', -, hends, -⟩ := step_cases hvalid byte left
    · cases hfails.symm.trans hrun
      exact ⟨rfl, hstep⟩
    · cases hends.symm.trans hrun
  · intro hfew row n hrun
    obtain ⟨e', -, hfails⟩ | ⟨s, n', hnext, hends, -, hstate⟩ := step_cases hvalid byte left
    · cases hfails.symm.trans hrun
    · cases hends.symm.trans hrun
      have hsmall : s.checks % 2 ^ 64 = s.checks := by
        have hle : s.checks ≤ m.checks.toNat + 1 := checks_le_of_next hnext
        exact Nat.mod_eq_of_lt (by omega)
      have hsame : n.state = s := by rw [hstate, hsmall]
      rw [State.step, hnext, hsame]
      rfl

/-- A length field that says zero is refused again and again. -/
example : ((initial 7 .empty).after [(0x4d, 9), (0, 8), (0, 7), (0, 7)]).parse = ⟨.length, 1, 0, 256⟩ := by
  decide +kernel

end Machine

end ScriptCircuit
