import Mathlib
import ScriptCircuit.Proofs.Plonk.Matrix
import ScriptCircuit.Script.Trace

/-!
# Runs as sequences of states

A step does one of ten things, as the mode and the class of its byte say, and keeps the counters within bounds. A run of a
script is a sequence of states, one before every byte and one after the last, each the next of the one before it. A trace
succeeds exactly when there is such a sequence that ends outside a push, and then its rows are read off the states.
-/

namespace ScriptCircuit

open MatrixAux Combination

/-- Every state of a sequence is the next of the one before it, as long as the script has bytes. -/
def State.Steps (script : List UInt8) (states : Nat → State) : Prop :=
  ∀ i (h : i < script.length), (states i).next script[i] (script.length - (i + 1)) = .ok (states (i + 1))

/-- The row of byte `i` of a script in a run. -/
def State.rowOfByte (r : Felt) (script : List UInt8) (states : Nat → State) (i : Nat) (h : i < script.length) : Row :=
  { State.row (states i) (states (i + 1)) script[i] with
    scriptAcc := hornerReversed r (script.drop (i + 1))
    scriptLeft := script.length - i }

namespace RunAux

/-- A sequence with one state in front. -/
def prepend (s : State) (states : Nat → State) : Nat → State
  | 0 => s
  | i + 1 => states i

/-- A test passes when it does not throw. -/
theorem ite_throw_eq_ok {α : Type} {p : Prop} [Decidable p] {e : Error} {x : Except Error α} {a : α} :
    (if p then throw e else x) = .ok a ↔ ¬p ∧ x = .ok a := by
  by_cases h : p
  · rw [if_pos h]
    exact iff_of_false (by nofun) fun h' => h'.1 h
  · rw [if_neg h, and_iff_right h]

theorem pure_eq_ok {a b : State} : (pure a : Except Error State) = .ok b ↔ b = a :=
  ⟨fun h => by cases h; rfl, fun h => by rw [h]; rfl⟩

end RunAux

open RunAux

/-- The opcodes that push a number lie above the reserved one. -/
theorem Opcode.reserved_le {byte : UInt8} (h : class? byte = some .pushNumber) : reserved ≤ byte := by
  grind [class?, reserved]

/-- What a step can do with a byte that `left` script bytes follow. -/
inductive State.Step (s : State) (byte : UInt8) (left : Nat) : State → Prop where
  | pushEmpty (hmode : s.mode = .opcode) (hclass : Opcode.class? byte = some .pushEmpty) :
    Step s byte left { s with stack := s.stack.push negativeZero }
  | pushNumber (hmode : s.mode = .opcode) (hclass : Opcode.class? byte = some .pushNumber) :
    Step s byte left { s with stack := s.stack.push (.ofByte (byte - Opcode.reserved)) }
  | pushBytes (hmode : s.mode = .opcode) (hclass : Opcode.class? byte = some .pushBytes) (hfit : byte.toNat ≤ left) :
    Step s byte left { s with stack := s.stack.push 0, mode := .data byte.toNat }
  | pushData {k : OpcodeClass} {width : Nat} (hmode : s.mode = .opcode) (hclass : Opcode.class? byte = some k)
      (hwidth : k.lengthWidth? = some width) (hfit : width ≤ left) :
    Step s byte left { s with stack := s.stack.push 0, mode := .length width 0 1 }
  | invalid (hmode : s.mode = .opcode) (hclass : Opcode.class? byte = some .checkSignature)
      (hflag : getElem s.stack 1 one_lt_stackDepth = 0) : Step s byte left { s with stack := s.stack.pop.pop.push 0 }
  | valid (hmode : s.mode = .opcode) (hclass : Opcode.class? byte = some .checkSignature)
      (hflag : getElem s.stack 1 one_lt_stackDepth = 1) :
    Step s byte left { s with
      stack := s.stack.pop.pop.push 1
      keyAcc := s.keyAcc * s.challenge + s.stack.top
      checks := s.checks + 1 }
  | unclassified (hmode : s.mode = .opcode) (hclass : Opcode.class? byte = none) : Step s byte left s
  | data {n : Nat} (hmode : s.mode = .data n) : Step s byte left (s.appendData byte n)
  | lastLength {decoded weight : Nat} (hmode : s.mode = .length 1 decoded weight)
      (hpos : decoded + byte.toNat * weight ≠ 0) (hfit : decoded + byte.toNat * weight ≤ left) :
    Step s byte left { s with mode := .data (decoded + byte.toNat * weight) }
  | length {n decoded weight : Nat} (hmode : s.mode = .length n decoded weight) (hmore : n ≠ 1) :
    Step s byte left { s with mode := .length (n - 1) (decoded + byte.toNat * weight) (weight * 256) }

namespace RunAux

variable {s t : State} {byte : UInt8} {left : Nat}

/-- A length field is opened when it fits into the script, over a zero. -/
theorem openLength_eq_ok {width : Nat} :
    s.openLength byte width left = .ok t ↔
      width ≤ left ∧ t = { s with stack := s.stack.push 0, mode := .length width 0 1 } := by
  rw [State.openLength, ite_throw_eq_ok, pure_eq_ok, Nat.not_lt]

/-- A length byte closes the field with a length that fits, or adds its digit. -/
theorem takeLength_eq_ok {n decoded weight : Nat} :
    s.takeLength byte n decoded weight left = .ok t ↔
      (n = 1 ∧ decoded + byte.toNat * weight ≠ 0 ∧ decoded + byte.toNat * weight ≤ left ∧
          t = { s with mode := .data (decoded + byte.toNat * weight) }) ∨
        (n ≠ 1 ∧ t = { s with mode := .length (n - 1) (decoded + byte.toNat * weight) (weight * 256) }) := by
  unfold State.takeLength
  dsimp only
  by_cases h : n = 1
  · rw [if_pos h, ite_throw_eq_ok, ite_throw_eq_ok, pure_eq_ok, Nat.not_lt]
    simp [h]
  · rw [if_neg h, pure_eq_ok]
    simp [h]

/-- A signature check passes for the flags zero and one, and folds and counts the key for one. -/
theorem checkSignature_eq_ok :
    s.checkSignature = .ok t ↔
      (getElem s.stack 1 one_lt_stackDepth = 0 ∧ t = { s with stack := s.stack.pop.pop.push 0 }) ∨
        (getElem s.stack 1 one_lt_stackDepth = 1 ∧ t = { s with
          stack := s.stack.pop.pop.push 1
          keyAcc := s.keyAcc * s.challenge + s.stack.top
          checks := s.checks + 1 }) := by
  unfold State.checkSignature
  dsimp only
  by_cases hzero : getElem s.stack 1 one_lt_stackDepth = 0
  · rw [if_pos hzero, pure_eq_ok, hzero, and_iff_right rfl, or_iff_left]
    exact fun h => absurd h.1 (by decide)
  · rw [if_neg hzero]
    by_cases hone : getElem s.stack 1 one_lt_stackDepth = 1
    · rw [if_pos hone, pure_eq_ok, hone, and_iff_right rfl, or_iff_right]
      exact fun h => absurd h.1 (by decide)
    · rw [if_neg hone]
      exact iff_of_false (by nofun) fun h => h.elim (fun h => hzero h.1) fun h => hone h.1

/-- Where an opcode is expected the byte is executed. -/
theorem next_of_opcode (hmode : s.mode = .opcode) : s.next byte left = s.execute byte left := by
  rw [State.next, hmode]

/-- An opcode that is executed is a step. -/
theorem step_of_execute (hmode : s.mode = .opcode) (h : s.execute byte left = .ok t) : s.Step byte left t := by
  unfold State.execute at h
  split at h
  next hclass =>
    obtain rfl := pure_eq_ok.mp h
    exact .pushEmpty hmode hclass
  next hclass =>
    obtain rfl := pure_eq_ok.mp h
    exact .pushNumber hmode hclass
  next hclass =>
    obtain ⟨hfit, h⟩ := ite_throw_eq_ok.mp h
    obtain rfl := pure_eq_ok.mp h
    exact .pushBytes hmode hclass (Nat.not_lt.mp hfit)
  next hclass =>
    obtain ⟨hfit, rfl⟩ := openLength_eq_ok.mp h
    exact .pushData hmode hclass rfl hfit
  next hclass =>
    obtain ⟨hfit, rfl⟩ := openLength_eq_ok.mp h
    exact .pushData hmode hclass rfl hfit
  next hclass =>
    obtain ⟨hfit, rfl⟩ := openLength_eq_ok.mp h
    exact .pushData hmode hclass rfl hfit
  next hclass =>
    obtain ⟨hflag, rfl⟩ | ⟨hflag, rfl⟩ := checkSignature_eq_ok.mp h
    · exact .invalid hmode hclass hflag
    · exact .valid hmode hclass hflag
  next hclass =>
    obtain rfl := pure_eq_ok.mp h
    exact .unclassified hmode hclass

end RunAux

/-- A step succeeds exactly when it does one of these. -/
theorem State.next_eq_ok {s t : State} {byte : UInt8} {left : Nat} : s.next byte left = .ok t ↔ s.Step byte left t := by
  constructor
  · intro h
    unfold next at h
    split at h
    next hmode => exact step_of_execute hmode h
    next hmode =>
      obtain rfl := pure_eq_ok.mp h
      exact .data hmode
    next hmode =>
      obtain ⟨rfl, hpos, hfit, rfl⟩ | ⟨hmore, rfl⟩ := takeLength_eq_ok.mp h
      · exact .lastLength hmode hpos hfit
      · exact .length hmode hmore
  · intro h
    cases h with
    | pushEmpty hmode hclass | pushNumber hmode hclass | unclassified hmode hclass =>
      rw [next_of_opcode hmode, execute, hclass]
      rfl
    | pushBytes hmode hclass hfit =>
      rw [next_of_opcode hmode, execute, hclass]
      exact ite_throw_eq_ok.mpr ⟨Nat.not_lt.mpr hfit, rfl⟩
    | @pushData k width hmode hclass hwidth hfit =>
      rw [next_of_opcode hmode, execute, hclass]
      cases k <;> cases hwidth <;> exact openLength_eq_ok.mpr ⟨hfit, rfl⟩
    | invalid hmode hclass hflag =>
      rw [next_of_opcode hmode, execute, hclass]
      exact checkSignature_eq_ok.mpr (.inl ⟨hflag, rfl⟩)
    | valid hmode hclass hflag =>
      rw [next_of_opcode hmode, execute, hclass]
      exact checkSignature_eq_ok.mpr (.inr ⟨hflag, rfl⟩)
    | data hmode =>
      rw [next, hmode]
      rfl
    | lastLength hmode hpos hfit =>
      rw [next, hmode]
      exact takeLength_eq_ok.mpr (.inl ⟨rfl, hpos, hfit, rfl⟩)
    | length hmode hmore =>
      rw [next, hmode]
      exact takeLength_eq_ok.mpr (.inr ⟨hmore, rfl⟩)

/-- No step changes the challenge. -/
theorem State.next_challenge {s t : State} {byte : UInt8} {left : Nat} (h : s.next byte left = .ok t) :
    t.challenge = s.challenge := by
  cases next_eq_ok.mp h <;> rfl

/-- What is left of a push fits into the script bytes that follow, and a length field stays below its weight. -/
def Mode.Bounded (left : Nat) : Mode → Prop
  | .opcode => True
  | .data n => 0 < n ∧ n ≤ left
  | .length n decoded weight => 0 < n ∧ n ≤ left ∧ weight * 256 ^ n ≤ 256 ^ 4 ∧ decoded < weight

/-- The counters of a state that `read` bytes have led to and `left` bytes follow. -/
structure State.Within (s : State) (read left : Nat) : Prop where
  checks : s.checks ≤ read
  mode : s.mode.Bounded left

namespace RunAux

theorem lengthWidth_le {k : OpcodeClass} {width : Nat} (h : k.lengthWidth? = some width) : 0 < width ∧ width ≤ 4 := by
  cases k <;> cases h <;> decide

/-- A byte of a length field keeps the length below the next weight. -/
theorem decoded_lt {decoded weight : Nat} (byte : UInt8) (h : decoded < weight) :
    decoded + byte.toNat * weight < weight * 256 := by
  have hbyte : byte.toNat * weight ≤ 255 * weight := Nat.mul_le_mul_right weight (Nat.le_of_lt_succ byte.toNat_lt)
  omega

end RunAux

/-- Every step keeps the counters within what has been read and what follows. -/
theorem State.Within.next {s t : State} {byte : UInt8} {read left : Nat} (hs : s.Within read (left + 1))
    (h : s.next byte left = .ok t) : t.Within (read + 1) left := by
  obtain ⟨hchecks, hbounded⟩ := hs
  cases next_eq_ok.mp h with
  | pushEmpty hmode | pushNumber hmode | unclassified hmode | invalid hmode =>
    refine ⟨Nat.le_succ_of_le hchecks, ?_⟩
    change s.mode.Bounded left
    rw [hmode]
    trivial
  | pushBytes hmode hclass hfit =>
    refine ⟨Nat.le_succ_of_le hchecks, ?_, hfit⟩
    refine Nat.pos_of_ne_zero fun hzero => ?_
    obtain rfl : byte = 0 := UInt8.toNat_inj.mp hzero
    exact absurd hclass (by decide)
  | pushData hmode hclass hwidth hfit =>
    obtain ⟨hpos, hle⟩ := lengthWidth_le hwidth
    refine ⟨Nat.le_succ_of_le hchecks, hpos, hfit, ?_, Nat.one_pos⟩
    rw [Nat.one_mul]
    exact Nat.pow_le_pow_right (by decide) hle
  | valid hmode =>
    refine ⟨Nat.succ_le_succ hchecks, ?_⟩
    change s.mode.Bounded left
    rw [hmode]
    trivial
  | @data n hmode =>
    rw [hmode] at hbounded
    obtain ⟨hpos, hle⟩ := hbounded
    refine ⟨Nat.le_succ_of_le hchecks, ?_⟩
    change (if n = 1 then Mode.opcode else .data (n - 1)).Bounded left
    by_cases hlast : n = 1
    · rw [if_pos hlast]
      trivial
    · rw [if_neg hlast]
      exact ⟨by omega, by omega⟩
  | lastLength hmode hpos hfit => exact ⟨Nat.le_succ_of_le hchecks, Nat.pos_of_ne_zero hpos, hfit⟩
  | @length n decoded weight hmode hmore =>
    rw [hmode] at hbounded
    obtain ⟨hpos, hle, hweight, hdecoded⟩ := hbounded
    obtain ⟨n, rfl⟩ := Nat.exists_eq_succ_of_ne_zero (Nat.ne_of_gt hpos)
    refine ⟨Nat.le_succ_of_le hchecks, by omega, by omega, ?_, decoded_lt byte hdecoded⟩
    change weight * 256 * 256 ^ n ≤ 256 ^ 4
    rw [Nat.mul_assoc, ← Nat.pow_succ']
    exact hweight

/-- Steps keep the challenge. -/
theorem State.Steps.challenge {script : List UInt8} {states : Nat → State} (h : Steps script states) {i : Nat}
    (hi : i ≤ script.length) : (states i).challenge = (states 0).challenge := by
  induction i with
  | zero => rfl
  | succ i ih => rw [next_challenge (h i hi), ih (Nat.le_of_succ_le hi)]

/-- The counters stay within bounds along a run. -/
theorem State.Steps.within {script : List UInt8} {states : Nat → State} (h : Steps script states)
    (hzero : (states 0).Within 0 script.length) {i : Nat} (hi : i ≤ script.length) :
    (states i).Within i (script.length - i) := by
  induction i with
  | zero => exact hzero
  | succ i ih =>
    have hstate := ih (Nat.le_of_succ_le hi)
    rw [← Nat.succ_sub_succ, Nat.succ_sub hi] at hstate
    exact hstate.next (h i hi)

/-- The steps of a script are the step of its first byte and those of the bytes behind it. -/
theorem State.steps_cons {byte : UInt8} {rest : List UInt8} {states : Nat → State} :
    Steps (byte :: rest) states ↔
      (states 0).next byte rest.length = .ok (states 1) ∧ Steps rest fun i => states (i + 1) := by
  constructor
  · intro h
    refine ⟨h 0 (Nat.succ_pos _), fun i hi => ?_⟩
    have hnext := h (i + 1) (Nat.succ_lt_succ hi)
    rw [List.length_cons, Nat.succ_sub_succ] at hnext
    exact hnext
  · rintro ⟨hfirst, hrest⟩ (_ | i) hi
    · exact hfirst
    · have hnext := hrest i (Nat.lt_of_succ_lt_succ hi)
      rw [List.length_cons, Nat.succ_sub_succ]
      exact hnext

/-- The rows of a script are the row of its first byte and those of the bytes behind it. -/
theorem State.rowOfByte_cons (r : Felt) (byte : UInt8) (rest : List UInt8) (states : Nat → State) {i : Nat}
    (h : i + 1 < (byte :: rest).length) :
    rowOfByte r (byte :: rest) states (i + 1) h =
      rowOfByte r rest (fun i => states (i + 1)) i (Nat.lt_of_succ_lt_succ h) := by
  simp [rowOfByte]

/-- A script runs exactly when there is a sequence of states for it. -/
theorem State.run_eq_ok {s final : State} {script : List UInt8} {rows : List Row} :
    s.run script (suffixes s.challenge script).tail = .ok (rows, final) ↔
      ∃ states : Nat → State, states 0 = s ∧ Steps script states ∧ states script.length = final ∧
        rows.length = script.length ∧
        ∀ i (h : i < script.length), rows[i]? = some (rowOfByte s.challenge script states i h) := by
  -- The states of a longer script are those of its rest, behind the state it starts in.
  induction script generalizing s rows with
  | nil =>
    constructor
    · intro h
      cases h
      exact ⟨fun _ => final, rfl, fun i h => absurd h (Nat.not_lt_zero i), rfl, rfl,
        fun i h => absurd h (Nat.not_lt_zero i)⟩
    · rintro ⟨states, rfl, -, rfl, hlength, -⟩
      obtain rfl := List.eq_nil_of_length_eq_zero hlength
      rfl
  | cons byte rest ih =>
    rw [suffixes_cons, List.tail_cons, run, headD_suffixes, except_bind_eq_ok]
    constructor
    · rintro ⟨⟨row, next⟩, hstep, hrest⟩
      obtain ⟨after, hnext, h⟩ := except_bind_eq_ok.mp hstep
      cases h
      obtain ⟨⟨others, last⟩, hrun, h⟩ := except_bind_eq_ok.mp hrest
      cases h
      rw [← next_challenge hnext] at hrun
      obtain ⟨states, rfl, hsteps, rfl, hlength, hrows⟩ := ih.mp hrun
      refine ⟨prepend s states, rfl, steps_cons.mpr ⟨hnext, hsteps⟩, rfl, congrArg Nat.succ hlength, ?_⟩
      rintro (_ | i) hi
      · rfl
      · rw [List.getElem?_cons_succ, hrows i (Nat.lt_of_succ_lt_succ hi), next_challenge hnext, rowOfByte_cons]
        rfl
    · rintro ⟨states, rfl, hsteps, rfl, hlength, hrows⟩
      obtain ⟨hnext, hrest⟩ := steps_cons.mp hsteps
      obtain ⟨row, others, rfl⟩ := List.exists_cons_of_length_eq_add_one hlength
      cases hrows 0 (Nat.succ_pos _)
      have hrun : run (states 1) rest (suffixes (states 0).challenge rest).tail = .ok (others, states (rest.length + 1)) := by
        rw [← next_challenge hnext]
        refine ih.mpr ⟨fun i => states (i + 1), rfl, hrest, rfl, Nat.succ.inj hlength, fun i hi => ?_⟩
        rw [← List.getElem?_cons_succ, hrows (i + 1) (Nat.succ_lt_succ hi), next_challenge hnext, rowOfByte_cons]
      exact ⟨_, except_bind_eq_ok.mpr ⟨_, hnext, rfl⟩, except_bind_eq_ok.mpr ⟨_, hrun, rfl⟩⟩

namespace Trace

theorem firstRow_eq {trace : Trace} {row : Row} (hrow : trace.rows[0]? = some row) : trace.firstRow = row := by
  rw [firstRow, List.headD_eq_head?_getD, List.head?_eq_getElem?, hrow, Option.getD_some]

/-- The last row of a full trace. -/
theorem lastRow_eq {trace : Trace} {row : Row} (hlength : trace.rows.length = traceRows)
    (hrow : trace.rows[maxScriptSize + 1]? = some row) : trace.lastRow = row := by
  rw [lastRow, List.getLastD_eq_getLast?, List.getLast?_eq_getElem?, hlength]
  change (trace.rows[maxScriptSize + 1]?).getD default = row
  rw [hrow, Option.getD_some]

/-- The row at an offset of a trace, for the states of its run. -/
def rowAt (r : Felt) (script : List UInt8) (states : Nat → State) (offset : Nat) : Row :=
  if offset = 0 then .initial script.length (hornerReversed r script) (states 0)
  else if h : offset - 1 < script.length then State.rowOfByte r script states (offset - 1) h
  else .padding (states script.length) (if offset = maxScriptSize + 1 then 0 else Opcode.nop)

/-- The rows of a trace, put together from the rows of the bytes. -/
theorem rows_eq_iff {r : Felt} {script : List UInt8} {states : Nat → State} {rows all : List Row}
    (hfit : script.length ≤ maxScriptSize) (hlength : rows.length = script.length)
    (hrow : ∀ i (h : i < script.length), rows[i]? = some (State.rowOfByte r script states i h)) :
    all = Row.initial script.length (hornerReversed r script) (states 0) :: rows ++
        List.replicate (maxScriptSize - script.length) (.padding (states script.length) Opcode.nop) ++
          [.padding (states script.length) 0] ↔
      all.length = traceRows ∧ ∀ i, i < traceRows → all[i]? = some (rowAt r script states i) := by
  have hbuilt : ∀ built : List Row, built = Row.initial script.length (hornerReversed r script) (states 0) :: rows ++
        List.replicate (maxScriptSize - script.length) (.padding (states script.length) Opcode.nop) ++
          [.padding (states script.length) 0] →
      built.length = traceRows ∧ ∀ i, i < traceRows → built[i]? = some (rowAt r script states i) := by
    rintro _ rfl
    change script.length ≤ 520 at hfit
    refine ⟨?_, fun i hi => ?_⟩
    · simp only [List.length_append, List.length_cons, List.length_replicate, List.length_nil, hlength]
      change script.length + 1 + (520 - script.length) + (0 + 1) = 520 + 2
      omega
    · change i < 520 + 2 at hi
      rw [List.cons_append, List.cons_append]
      cases i with
      | zero => rfl
      | succ i =>
        rw [List.getElem?_cons_succ, rowAt, if_neg (Nat.succ_ne_zero i), Nat.add_sub_cancel]
        by_cases hbyte : i < script.length
        · rw [dif_pos hbyte, ← hrow i hbyte, List.append_assoc, List.getElem?_append_left (by omega)]
        · rw [dif_neg hbyte, List.append_assoc, List.getElem?_append_right (by omega), hlength]
          by_cases hlast : i = maxScriptSize
          · subst hlast
            rw [if_pos rfl, List.getElem?_append_right (Nat.le_of_eq List.length_replicate), List.length_replicate, Nat.sub_self]
            rfl
          · change i ≠ 520 at hlast
            rw [if_neg (by change i + 1 ≠ 520 + 1; omega), List.getElem?_append_left]
            · rw [List.getElem?_replicate, if_pos (by change i - script.length < 520 - script.length; omega)]
            · rw [List.length_replicate]
              change i - script.length < 520 - script.length
              omega
  constructor
  · exact hbuilt all
  · rintro ⟨hall, hget⟩
    obtain ⟨hlen, hget'⟩ := hbuilt _ rfl
    refine List.ext_getElem? fun i => ?_
    by_cases hi : i < traceRows
    · rw [hget i hi, hget' i hi]
    · rw [List.getElem?_eq_none (by omega), List.getElem?_eq_none (by omega)]

/-- A trace succeeds exactly on scripts that fit and run to a state outside a push; its rows are those of the run. -/
theorem ofStack_eq_ok {script : List UInt8} {r : Felt} {stack : Stack} {trace : Trace} :
    ofStack script r stack = .ok trace ↔
      script.length ≤ maxScriptSize ∧ ∃ states : Nat → State, states 0 = .initial r stack ∧
        State.Steps script states ∧ (states script.length).mode = .opcode ∧
        (trace.script = script ∧ trace.challenge = r ∧ trace.scriptCombination = hornerReversed r script) ∧
        trace.rows.length = traceRows ∧ ∀ i, i < traceRows → trace.rows[i]? = some (rowAt r script states i) := by
  unfold ofStack
  simp only [headD_suffixes]
  by_cases hfit : script.length > maxScriptSize
  · rw [if_pos hfit]
    exact iff_of_false (by nofun) fun h => Nat.not_lt.mpr h.1 hfit
  · rw [if_neg hfit, and_iff_right (Nat.not_lt.mp hfit)]
    rw [except_bind_eq_ok]
    constructor
    · rintro ⟨⟨rows, final⟩, hrun, h⟩
      obtain ⟨states, hzero, hsteps, rfl, hlength, hrow⟩ := State.run_eq_ok.mp hrun
      dsimp only at h
      by_cases hmode : (states script.length).mode ≠ .opcode
      · rw [if_pos hmode] at h
        cases h
      · rw [if_neg hmode] at h
        cases h
        have hrows := (rows_eq_iff (Nat.not_lt.mp hfit) hlength hrow).mp rfl
        rw [hzero] at hrows
        exact ⟨states, hzero, hsteps, not_not.mp hmode, ⟨rfl, rfl, rfl⟩, hrows⟩
    · rintro ⟨states, hzero, hsteps, hmode, ⟨hscript, hchallenge, hcombination⟩, hrows⟩
      have hlength : (List.ofFn fun i : Fin script.length => State.rowOfByte r script states i i.isLt).length =
          script.length := List.length_ofFn
      have hrow : ∀ i (h : i < script.length),
          (List.ofFn fun i : Fin script.length => State.rowOfByte r script states i i.isLt)[i]? =
            some (State.rowOfByte r script states i h) := fun i h => by
        rw [List.getElem?_ofFn, dif_pos h]
      refine ⟨_, State.run_eq_ok.mpr ⟨states, hzero, hsteps, rfl, hlength, hrow⟩, ?_⟩
      dsimp only
      rw [if_neg (not_not_intro hmode)]
      obtain ⟨script', challenge', combination', rows'⟩ := trace
      obtain rfl : script' = script := hscript
      obtain rfl : challenge' = r := hchallenge
      obtain rfl : combination' = hornerReversed challenge' script' := hcombination
      obtain rfl := (rows_eq_iff (Nat.not_lt.mp hfit) hlength hrow).mpr hrows
      rw [hzero]
      rfl

end Trace

end ScriptCircuit
