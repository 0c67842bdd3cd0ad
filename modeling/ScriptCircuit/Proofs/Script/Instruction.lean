import Mathlib
import ScriptCircuit.Proofs.Field.Algebra
import ScriptCircuit.Proofs.Script.Run
import ScriptCircuit.Script.Instruction

/-!
# Scripts as instructions

The interpreter takes a script byte by byte; its meaning is given by whole instructions. No script is coded by two lists of
instructions, and a script that is coded by one takes the registers where its instructions, in order, take them. A script
that is coded by none, or checks an item that is no flag, is an invalid argument.
-/

namespace ScriptCircuit

open Combination MatrixAux RunAux

namespace Instruction

/-- The bytes that code an instruction. -/
inductive Codes : Instruction → List UInt8 → Prop where
  /-- any byte that opens no push codes itself -/
  | single {opcode : UInt8} (hopcode : ¬(0x01 ≤ opcode ∧ opcode ≤ 0x4e)) : Codes (.single opcode) [opcode]
  /-- the opcode is the number of data bytes -/
  | pushBytes {opcode : UInt8} {data : List UInt8} (hopcode : 0x01 ≤ opcode ∧ opcode ≤ 0x4b)
      (hlength : data.length = opcode.toNat) : Codes (.push data) (opcode :: data)
  /-- the opcode gives the width of a field with the number of data bytes -/
  | pushData {opcode : UInt8} {field data : List UInt8}
      (hopcode : opcode = 0x4c ∧ field.length = 1 ∨ opcode = 0x4d ∧ field.length = 2 ∨ opcode = 0x4e ∧ field.length = 4)
      (hpos : 1 ≤ data.length) (hlength : littleEndian field = data.length) : Codes (.push data) (opcode :: (field ++ data))

end Instruction

/-- The instructions a script is the concatenation of, in order. -/
inductive Decodes : List UInt8 → List Instruction → Prop where
  | nil : Decodes [] []
  | cons {i : Instruction} {bytes rest : List UInt8} {others : List Instruction} (hcodes : i.Codes bytes)
      (hrest : Decodes rest others) : Decodes (bytes ++ rest) (i :: others)

/-- What the instructions of a script act on. -/
structure Registers where
  stack : Stack
  /-- the fold of the keys whose signature is valid -/
  keyAcc : Felt
  /-- the number of those keys -/
  checks : Nat
deriving DecidableEq

namespace Registers

/-- The effect of a signature check: its flag replaces the two items on top, a set one folds the key. -/
def checkSignature (r : Felt) (m : Registers) : Option Registers :=
  if getElem m.stack 1 one_lt_stackDepth = 0 then some { m with stack := m.stack.pop.pop.push 0 }
  else if getElem m.stack 1 one_lt_stackDepth = 1 then
    some { stack := m.stack.pop.pop.push 1, keyAcc := m.keyAcc * r + m.stack.top, checks := m.checks + 1 }
  else none

/-- The effect of an instruction. -/
def perform (r : Felt) (m : Registers) : Instruction → Option Registers
  | .push data => some { m with stack := m.stack.push (horner r 0 data) }
  | .single opcode =>
    if opcode = 0x00 then some { m with stack := m.stack.push (.ofNat 0x80) }
    else if 0x51 ≤ opcode ∧ opcode ≤ 0x60 then some { m with stack := m.stack.push (.ofNat (opcode.toNat - 0x50)) }
    else if opcode = 0xac then m.checkSignature r
    else some m

/-- The effect of a list of instructions, in order. -/
def execute (r : Felt) (m : Registers) (instructions : List Instruction) : Option Registers :=
  instructions.foldlM (perform r) m

/-- The state of the interpreter before an instruction. -/
def state (r : Felt) (m : Registers) : State where
  challenge := r
  stack := m.stack
  mode := .opcode
  keyAcc := m.keyAcc
  checks := m.checks

end Registers

/-- The registers a row shows. -/
def Row.registers (row : Row) : Registers where
  stack := row.stack
  keyAcc := row.keyAcc
  checks := row.checks

namespace Instruction

/-- Taking bytes splits the script behind as many as asked for. -/
theorem takeBytes_eq_ok {position count : Nat} {rest first last : List UInt8} :
    takeBytes position count rest = .ok (first, last) ↔ first.length = count ∧ rest = first ++ last := by
  rw [takeBytes, ite_throw_eq_ok, Nat.not_lt]
  constructor
  · rintro ⟨hle, h⟩
    cases h
    exact ⟨List.length_take_of_le hle, (List.take_append_drop count rest).symm⟩
  · rintro ⟨rfl, rfl⟩
    refine ⟨?_, ?_⟩
    · rw [List.length_append]
      exact Nat.le_add_right _ _
    · rw [List.take_left, List.drop_left]
      rfl

/-- A push with a length field of `width` bytes. -/
theorem readPushData_eq_ok {position width : Nat} {rest last : List UInt8} {i : Instruction} :
    readPushData position width rest = .ok (i, last) ↔
      ∃ field data, field.length = width ∧ 1 ≤ data.length ∧ littleEndian field = data.length ∧ i = .push data ∧
        rest = field ++ data ++ last := by
  unfold readPushData
  rw [except_bind_eq_ok]
  constructor
  · rintro ⟨⟨field, rest'⟩, hfield, hread⟩
    obtain ⟨hwidth, rfl⟩ := takeBytes_eq_ok.mp hfield
    obtain ⟨hpos, hread⟩ := ite_throw_eq_ok.mp hread
    obtain ⟨⟨data, last'⟩, hdata, hpush⟩ := except_bind_eq_ok.mp hread
    obtain ⟨hlength, rfl⟩ := takeBytes_eq_ok.mp hdata
    cases hpush
    exact ⟨field, data, hwidth, by omega, hlength.symm, rfl, (List.append_assoc _ _ _).symm⟩
  · rintro ⟨field, data, hwidth, hpos, hlength, rfl, rfl⟩
    refine ⟨(field, data ++ last), takeBytes_eq_ok.mpr ⟨hwidth, List.append_assoc _ _ _⟩, ite_throw_eq_ok.mpr ⟨by omega, ?_⟩⟩
    exact except_bind_eq_ok.mpr ⟨(data, last), takeBytes_eq_ok.mpr ⟨hlength.symm, rfl⟩, rfl⟩

/-- The opcodes whose push has a length field, and the width of the field. -/
theorem class_pushData {opcode : UInt8} {width : Nat} :
    (∃ k, Opcode.class? opcode = some k ∧ k.lengthWidth? = some width) ↔
      opcode = 0x4c ∧ width = 1 ∨ opcode = 0x4d ∧ width = 2 ∨ opcode = 0x4e ∧ width = 4 := by
  constructor
  · rintro ⟨k, hclass, hwidth⟩
    unfold Opcode.class? at hclass
    cases k <;> cases hwidth <;> grind
  · rintro (⟨rfl, rfl⟩ | ⟨rfl, rfl⟩ | ⟨rfl, rfl⟩)
    · exact ⟨.pushData1, by decide, rfl⟩
    · exact ⟨.pushData2, by decide, rfl⟩
    · exact ⟨.pushData4, by decide, rfl⟩

/-- The direct pushes are the opcodes from 1 to 75. -/
theorem class_pushBytes {opcode : UInt8} : Opcode.class? opcode = some .pushBytes ↔ 0x01 ≤ opcode ∧ opcode ≤ 0x4b := by
  unfold Opcode.class?
  grind

/-- The opcodes that stand alone. -/
theorem class_single {opcode : UInt8} :
    (∀ k, Opcode.class? opcode = some k → k ≠ .pushBytes ∧ k.lengthWidth? = none) ↔ ¬(0x01 ≤ opcode ∧ opcode ≤ 0x4e) := by
  unfold Opcode.class?
  constructor
  · intro h
    grind [OpcodeClass.lengthWidth?]
  · intro h k hclass
    grind [OpcodeClass.lengthWidth?]

/-- The class of an opcode that stands alone. -/
theorem class_eq_of_single {opcode : UInt8} (h : ¬(0x01 ≤ opcode ∧ opcode ≤ 0x4e)) :
    Opcode.class? opcode =
      if opcode = 0x00 then some .pushEmpty
      else if 0x51 ≤ opcode ∧ opcode ≤ 0x60 then some .pushNumber
      else if opcode = 0xac then some .checkSignature else none := by
  unfold Opcode.class?
  grind

/-- An opcode gives the length of its push, gives the width of a field with that length, or stands alone. -/
theorem opcode_cases (opcode : UInt8) :
    Opcode.class? opcode = some .pushBytes ∨
      (∃ k width, Opcode.class? opcode = some k ∧ k.lengthWidth? = some width) ∨ ¬(0x01 ≤ opcode ∧ opcode ≤ 0x4e) := by
  rw [← class_single]
  cases hclass : Opcode.class? opcode with
  | none => exact .inr (.inr fun k h => absurd h (by simp))
  | some k =>
    cases k <;> simp [OpcodeClass.lengthWidth?]

section Read

variable {position : Nat} {opcode : UInt8} {rest last : List UInt8} {i : Instruction}

/-- A direct push is read with the bytes behind it. -/
theorem read_pushBytes (hclass : Opcode.class? opcode = some .pushBytes) :
    read position opcode rest = .ok (i, last) ↔
      ∃ data, data.length = opcode.toNat ∧ i = .push data ∧ rest = data ++ last := by
  unfold read
  rw [hclass]
  dsimp only
  rw [except_bind_eq_ok]
  constructor
  · rintro ⟨⟨data, last'⟩, hdata, hpush⟩
    obtain ⟨hlength, rfl⟩ := takeBytes_eq_ok.mp hdata
    cases hpush
    exact ⟨data, hlength, rfl, rfl⟩
  · rintro ⟨data, hlength, rfl, rfl⟩
    exact ⟨(data, last), takeBytes_eq_ok.mpr ⟨hlength, rfl⟩, rfl⟩

/-- A push with a length field is read with its field. -/
theorem read_pushData {k : OpcodeClass} {width : Nat} (hclass : Opcode.class? opcode = some k)
    (hwidth : k.lengthWidth? = some width) : read position opcode rest = readPushData position width rest := by
  unfold read
  rw [hclass]
  cases k <;> cases hwidth <;> rfl

/-- Any other opcode is an instruction on its own. -/
theorem read_single (hopcode : ¬(0x01 ≤ opcode ∧ opcode ≤ 0x4e)) :
    read position opcode rest = .ok (.single opcode, rest) := by
  have hsingle := class_single.mpr hopcode
  unfold read
  split
  · exact absurd rfl (hsingle _ ‹_›).1
  · exact absurd (hsingle _ ‹_›).2 (by decide)
  · exact absurd (hsingle _ ‹_›).2 (by decide)
  · exact absurd (hsingle _ ‹_›).2 (by decide)
  · rfl

/-- The reader returns an instruction exactly when its bytes come first. -/
theorem read_eq_ok :
    read position opcode rest = .ok (i, last) ↔ ∃ bytes, i.Codes (opcode :: bytes) ∧ rest = bytes ++ last := by
  constructor
  · intro h
    obtain hclass | ⟨k, width, hclass, hwidth⟩ | hopcode := opcode_cases opcode
    · obtain ⟨data, hlength, rfl, rfl⟩ := (read_pushBytes hclass).mp h
      exact ⟨data, .pushBytes (class_pushBytes.mp hclass) hlength, rfl⟩
    · rw [read_pushData hclass hwidth] at h
      obtain ⟨field, data, rfl, hpos, hlength, rfl, rfl⟩ := readPushData_eq_ok.mp h
      exact ⟨field ++ data, .pushData (class_pushData.mp ⟨k, hclass, hwidth⟩) hpos hlength, rfl⟩
    · rw [read_single hopcode] at h
      cases h
      exact ⟨[], .single hopcode, rfl⟩
  · rintro ⟨bytes, hcodes, rfl⟩
    cases hcodes with
    | single hopcode => exact read_single hopcode
    | pushBytes hopcode hlength => exact (read_pushBytes (class_pushBytes.mpr hopcode)).mpr ⟨bytes, hlength, rfl, rfl⟩
    | @pushData _ field data hopcode hpos hlength =>
      obtain ⟨k, hclass, hwidth⟩ := class_pushData.mpr hopcode
      rw [read_pushData hclass hwidth]
      exact readPushData_eq_ok.mpr ⟨field, data, rfl, hpos, hlength, rfl, rfl⟩

end Read

/-- A script starts with the bytes of at most one instruction. -/
theorem Codes.unique {i j : Instruction} {bytes bytes' rest rest' : List UInt8} (h : i.Codes bytes) (h' : j.Codes bytes')
    (heq : bytes ++ rest = bytes' ++ rest') : i = j ∧ rest = rest' := by
  obtain ⟨opcode, tail, rfl⟩ : ∃ opcode tail, bytes = opcode :: tail := by cases h <;> exact ⟨_, _, rfl⟩
  obtain ⟨opcode', tail', rfl⟩ : ∃ opcode tail, bytes' = opcode :: tail := by cases h' <;> exact ⟨_, _, rfl⟩
  obtain rfl : opcode = opcode' := (List.cons.inj heq).1
  have htail : tail ++ rest = tail' ++ rest' := (List.cons.inj heq).2
  have hread : read 0 opcode (tail ++ rest) = .ok (i, rest) := read_eq_ok.mpr ⟨tail, h, rfl⟩
  rw [read_eq_ok.mpr ⟨tail', h', htail⟩] at hread
  cases hread
  exact ⟨rfl, rfl⟩

end Instruction

/-- A script is coded by at most one list of instructions. -/
theorem Decodes.unique {script : List UInt8} {is js : List Instruction} (h : Decodes script is) (h' : Decodes script js) :
    is = js := by
  induction h generalizing js with
  | nil =>
    generalize hscript : ([] : List UInt8) = script at h'
    cases h' with
    | nil => rfl
    | cons hcodes _ => cases hcodes <;> cases hscript
  | @cons i bytes rest others hcodes hrest ih =>
    generalize hscript : bytes ++ rest = script at h'
    cases h' with
    | nil => cases hcodes <;> cases hscript
    | cons hcodes' hrest' =>
      obtain ⟨rfl, rfl⟩ := hcodes.unique hcodes' hscript
      rw [ih hrest']

namespace Stack

/-- A pushed item can be replaced by another. -/
theorem setTop_push (s : Stack) (x y : Felt) : (s.push x).setTop y = s.push y := by
  refine Vector.ext fun i hi => ?_
  rw [setTop, Vector.getElem_set, getElem_push, getElem_push]
  by_cases hzero : i = 0
  · rw [if_pos hzero.symm, if_pos hzero]
  · rw [if_neg (Ne.symm hzero), if_neg hzero, if_neg hzero]

theorem top_push (s : Stack) (x : Felt) : (s.push x).top = x :=
  (getElem_push s x 0 stackDepth_pos).trans (if_pos rfl)

theorem setTop_setTop (s : Stack) (x y : Felt) : (s.setTop x).setTop y = s.setTop y :=
  Vector.set_set ..

theorem top_setTop (s : Stack) (x : Felt) : (s.setTop x).top = x :=
  Vector.getElem_set_self ..

end Stack

namespace State

/-- The state a script leads to. -/
def finish (s : State) : List UInt8 → Except Error State
  | [] => pure s
  | byte :: rest => do (← s.next byte rest.length).finish rest

/-- The state of a run, without its rows. -/
theorem run_map_snd (s : State) (script : List UInt8) (accs : List Felt) :
    (s.run script accs).map Prod.snd = s.finish script := by
  induction script generalizing s accs with
  | nil => rfl
  | cons byte rest ih =>
    rw [run, finish, step]
    cases hnext : s.next byte rest.length with
    | error e => rfl
    | ok next =>
      change Except.map Prod.snd (next.run rest accs.tail >>= _) = next.finish rest
      rw [← ih next accs.tail]
      cases next.run rest accs.tail <;> rfl

/-- A script is finished byte by byte. -/
theorem finish_cons (s : State) (byte : UInt8) (rest : List UInt8) :
    s.finish (byte :: rest) = s.next byte rest.length >>= fun next => next.finish rest :=
  rfl

/-- The data of a push is folded into the item on top, and then the next opcode is expected. -/
theorem finish_data {s : State} {data rest : List UInt8} (hpos : 1 ≤ data.length) (hmode : s.mode = .data data.length) :
    s.finish (data ++ rest) =
      finish { s with stack := s.stack.setTop (horner s.challenge s.stack.top data), mode := .opcode } rest := by
  induction data generalizing s with
  | nil => exact absurd hpos (by decide)
  | cons byte data ih =>
    rw [List.cons_append, finish_cons, next, hmode]
    change (s.appendData byte (data.length + 1)).finish (data ++ rest) = _
    have hfold : horner s.challenge s.stack.top (byte :: data) =
        horner s.challenge (Felt.ofByte byte + s.challenge * s.stack.top) data := by
      rw [add_comm]
      rfl
    rw [hfold]
    by_cases hlast : data = []
    · subst hlast
      rfl
    · have hmore : 1 ≤ data.length := List.length_pos_iff.mpr hlast
      have hnext : (s.appendData byte (data.length + 1)).mode = .data data.length :=
        if_neg (Nat.ne_of_gt (Nat.lt_succ_of_le hmore))
      rw [ih hmore hnext]
      change finish { s with
        stack := (s.stack.setTop _).setTop (horner s.challenge (s.stack.setTop _).top data), mode := .opcode } rest = _
      rw [Stack.setTop_setTop, Stack.top_setTop]

/-- A length field opens the data of its push, which must not be empty and must fit into the script. -/
theorem finish_field {s : State} {field rest : List UInt8} {decoded weight : Nat} (hpos : 1 ≤ field.length)
    (hmode : s.mode = .length field.length decoded weight) :
    s.finish (field ++ rest) =
      if decoded + weight * Instruction.littleEndian field = 0 then throw .zeroLengthPush
      else if decoded + weight * Instruction.littleEndian field > rest.length then
        throw (.dataOverrun (decoded + weight * Instruction.littleEndian field) rest.length)
      else finish { s with mode := .data (decoded + weight * Instruction.littleEndian field) } rest := by
  induction field generalizing s decoded weight with
  | nil => exact absurd hpos (by decide)
  | cons byte field ih =>
    have hlittle : decoded + weight * Instruction.littleEndian (byte :: field) =
        decoded + byte.toNat * weight + weight * 256 * Instruction.littleEndian field := by
      rw [Instruction.littleEndian]
      ring
    rw [List.cons_append, finish_cons, next, hmode, hlittle]
    change s.takeLength byte (field.length + 1) decoded weight (field ++ rest).length >>= _ = _
    unfold takeLength
    dsimp only
    by_cases hlast : field = []
    · subst hlast
      rw [List.length_nil, if_pos (Nat.zero_add 1), Instruction.littleEndian, Nat.mul_zero, Nat.add_zero, List.nil_append]
      split
      · rfl
      · split <;> rfl
    · have hmore : 1 ≤ field.length := List.length_pos_iff.mpr hlast
      rw [if_neg (by omega)]
      exact ih hmore rfl

section Effect

variable {r : Felt} {m : Registers}

/-- A check of a signature has its effect on the registers, or fails with the item that is no flag. -/
theorem checkSignature_state :
    (m.state r).checkSignature =
      (m.checkSignature r).elim (throw (.signatureFlag (getElem m.stack 1 one_lt_stackDepth))) fun m' => pure (m'.state r) := by
  unfold checkSignature Registers.checkSignature
  dsimp only [Registers.state]
  split
  next hflag => rw [hflag]; rfl
  next =>
    split
    next hflag => rw [hflag]; rfl
    next => rfl

/-- The number an opcode pushes is that above the reserved opcode. -/
theorem ofByte_sub_reserved {opcode : UInt8} (h : 0x51 ≤ opcode ∧ opcode ≤ 0x60) :
    Felt.ofByte (opcode - Opcode.reserved) = .ofNat (opcode.toNat - 0x50) := by
  have hle : Opcode.reserved ≤ opcode := UInt8.le_trans (by decide) h.1
  rw [Felt.ofByte_eq, Felt.ofNat_eq, UInt8.toNat_sub_of_le _ _ hle]
  rfl

/-- An opcode that stands alone has its effect on the registers. -/
theorem next_single {opcode : UInt8} {left : Nat} (hopcode : ¬(0x01 ≤ opcode ∧ opcode ≤ 0x4e)) :
    (m.state r).next opcode left =
      (m.perform r (.single opcode)).elim (throw (.signatureFlag (getElem m.stack 1 one_lt_stackDepth)))
        fun m' => pure (m'.state r) := by
  have hclass := Instruction.class_eq_of_single hopcode
  rw [next_of_opcode rfl, execute, Registers.perform]
  by_cases hempty : opcode = 0x00
  · rw [if_pos hempty] at hclass
    rw [hclass, if_pos hempty]
    rfl
  · rw [if_neg hempty] at hclass
    rw [if_neg hempty]
    by_cases hnumber : 0x51 ≤ opcode ∧ opcode ≤ 0x60
    · rw [if_pos hnumber] at hclass
      rw [hclass, if_pos hnumber, ← ofByte_sub_reserved hnumber]
      rfl
    · rw [if_neg hnumber] at hclass
      rw [if_neg hnumber]
      by_cases hcheck : opcode = 0xac
      · rw [if_pos hcheck] at hclass
        rw [hclass, if_pos hcheck]
        exact checkSignature_state
      · rw [if_neg hcheck] at hclass
        rw [hclass, if_neg hcheck]
        rfl

/-- The data of a push, folded onto an item that starts from zero, is the item that the push puts on the stack. -/
theorem finish_pushed {data rest : List UInt8} (hpos : 1 ≤ data.length) :
    finish { m.state r with stack := m.stack.push 0, mode := .data data.length } (data ++ rest) =
      (({ m with stack := m.stack.push (horner r 0 data) } : Registers).state r).finish rest := by
  rw [finish_data hpos rfl, Stack.setTop_push, Stack.top_push]
  rfl

/-- An instruction has its effect on the registers, whatever follows it. -/
theorem finish_codes {i : Instruction} {bytes rest : List UInt8} (hcodes : i.Codes bytes) :
    (m.state r).finish (bytes ++ rest) =
      (m.perform r i).elim (throw (.signatureFlag (getElem m.stack 1 one_lt_stackDepth))) fun m' => (m'.state r).finish rest := by
  cases hcodes with
  | @single opcode hopcode =>
    rw [List.singleton_append, finish_cons, next_single hopcode]
    cases m.perform r (.single opcode) <;> rfl
  | @pushBytes opcode data hopcode hlength =>
    have hnext : (m.state r).next opcode (data ++ rest).length =
        .ok { m.state r with stack := m.stack.push 0, mode := .data data.length } := by
      rw [hlength]
      refine next_eq_ok.mpr (.pushBytes rfl (Instruction.class_pushBytes.mpr hopcode) ?_)
      rw [List.length_append]
      omega
    have hpos : 1 ≤ data.length := by
      rw [hlength]
      exact UInt8.le_iff_toNat_le.mp hopcode.1
    rw [List.cons_append, finish_cons, hnext]
    change finish _ (data ++ rest) = _
    rw [finish_pushed hpos]
    rfl
  | @pushData opcode field data hopcode hpos hlength =>
    obtain ⟨k, hclass, hwidth⟩ := Instruction.class_pushData.mpr hopcode
    have hnext : (m.state r).next opcode (field ++ (data ++ rest)).length =
        .ok { m.state r with stack := m.stack.push 0, mode := .length field.length 0 1 } := by
      refine next_eq_ok.mpr (.pushData rfl hclass hwidth ?_)
      rw [List.length_append]
      exact Nat.le_add_right _ _
    rw [List.cons_append, List.append_assoc, finish_cons, hnext]
    change finish _ (field ++ (data ++ rest)) = _
    rw [finish_field (lengthWidth_le hwidth).1 rfl, Nat.zero_add, Nat.one_mul, hlength, if_neg (by omega), if_neg]
    · change finish { m.state r with stack := m.stack.push 0, mode := .data data.length } (data ++ rest) = _
      rw [finish_pushed hpos]
      rfl
    · rw [List.length_append]
      omega

/-- A script that starts with the bytes of no instruction is an invalid argument. -/
theorem finish_uncoded {opcode : UInt8} {rest : List UInt8}
    (h : ¬∃ (i : Instruction) (bytes last : List UInt8), i.Codes (opcode :: bytes) ∧ rest = bytes ++ last) :
    ∃ e, (m.state r).finish (opcode :: rest) = .error e ∧ e.category = .argument := by
  obtain hclass | ⟨k, width, hclass, hwidth⟩ | hopcode := Instruction.opcode_cases opcode
  · by_cases hfit : opcode.toNat ≤ rest.length
    · refine absurd ⟨.push (rest.take opcode.toNat), rest.take opcode.toNat, rest.drop opcode.toNat, ?_, ?_⟩ h
      · exact .pushBytes (Instruction.class_pushBytes.mp hclass) (List.length_take_of_le hfit)
      · rw [List.take_append_drop]
    · refine ⟨.pushOverrun opcode.toNat rest.length, ?_, rfl⟩
      rw [finish_cons, next_of_opcode rfl, execute, hclass]
      dsimp only
      rw [if_pos (Nat.lt_of_not_le hfit)]
      rfl
  · by_cases hfield : width ≤ rest.length
    · have htake : (rest.take width).length = width := List.length_take_of_le hfield
      have hnext : (m.state r).next opcode rest.length =
          .ok { m.state r with stack := m.stack.push 0, mode := .length (rest.take width).length 0 1 } := by
        rw [htake]
        exact next_eq_ok.mpr (.pushData rfl hclass hwidth hfield)
      have hpos : 1 ≤ (rest.take width).length := (lengthWidth_le hwidth).1.trans_eq htake.symm
      rw [finish_cons, hnext]
      change ∃ e, finish _ rest = .error e ∧ _
      nth_rewrite 2 [← List.take_append_drop width rest]
      rw [finish_field hpos rfl, Nat.zero_add, Nat.one_mul]
      by_cases hzero : Instruction.littleEndian (rest.take width) = 0
      · rw [if_pos hzero]
        exact ⟨_, rfl, rfl⟩
      · rw [if_neg hzero]
        by_cases hfit : Instruction.littleEndian (rest.take width) ≤ (rest.drop width).length
        · generalize hlength : Instruction.littleEndian (rest.take width) = length at hzero hfit
          refine absurd ⟨.push ((rest.drop width).take length), rest.take width ++ (rest.drop width).take length,
            (rest.drop width).drop length, .pushData ?_ ?_ ?_, ?_⟩ h
          · rw [htake]
            exact Instruction.class_pushData.mp ⟨k, hclass, hwidth⟩
          · rw [List.length_take_of_le hfit]
            omega
          · rw [hlength, List.length_take_of_le hfit]
          · rw [List.append_assoc, List.take_append_drop, List.take_append_drop]
        · exact ⟨_, if_pos (Nat.lt_of_not_le hfit), rfl⟩
    · refine ⟨.lengthFieldOverrun (Opcode.name opcode), ?_, rfl⟩
      have hopen : (m.state r).openLength opcode width rest.length = .error (.lengthFieldOverrun (Opcode.name opcode)) :=
        if_pos (Nat.lt_of_not_le hfield)
      rw [finish_cons, next_of_opcode rfl, execute, hclass]
      cases k <;> cases hwidth <;> (rw [hopen]; rfl)
  · exact absurd ⟨.single opcode, [], rest, .single hopcode, rfl⟩ h

/-- A script whose instructions can be performed leads where they lead. -/
theorem finish_of_decodes {script : List UInt8} {is : List Instruction} {final : Registers} (hdecodes : Decodes script is)
    (hexecute : m.execute r is = some final) : (m.state r).finish script = .ok (final.state r) := by
  induction hdecodes generalizing m with
  | nil =>
    cases hexecute
    rfl
  | @cons i bytes rest others hcodes hrest ih =>
    obtain ⟨next, hperform, hothers⟩ := Option.bind_eq_some_iff.mp hexecute
    rw [finish_codes hcodes, hperform]
    exact ih hothers

/-- A script leads where its instructions lead, or it is an invalid argument. -/
theorem finish_cases (r : Felt) (m : Registers) (script : List UInt8) :
    (∃ is final, Decodes script is ∧ m.execute r is = some final) ∨
      ∃ e, (m.state r).finish script = .error e ∧ e.category = .argument := by
  -- An instruction takes any number of bytes, so what is left is only known to be shorter.
  induction hlength : script.length using Nat.strong_induction_on generalizing m script with
  | _ n ih =>
    cases script with
    | nil => exact .inl ⟨[], m, .nil, rfl⟩
    | cons opcode rest =>
      by_cases hcoded : ∃ (i : Instruction) (bytes last : List UInt8), i.Codes (opcode :: bytes) ∧ rest = bytes ++ last
      · obtain ⟨i, bytes, last, hcodes, rfl⟩ := hcoded
        cases hperform : m.perform r i with
        | none =>
          refine .inr ⟨.signatureFlag (getElem m.stack 1 one_lt_stackDepth), ?_, rfl⟩
          rw [← List.cons_append, finish_codes hcodes, hperform]
          rfl
        | some next =>
          have hless : last.length < n := by
            rw [← hlength, List.length_cons, List.length_append]
            omega
          obtain ⟨is, final, hdecodes, hexecute⟩ | ⟨e, he, hcategory⟩ := ih last.length hless next last rfl
          · exact .inl ⟨i :: is, final, .cons hcodes hdecodes, Option.bind_eq_some_iff.mpr ⟨next, hperform, hexecute⟩⟩
          · refine .inr ⟨e, ?_, hcategory⟩
            rw [← List.cons_append, finish_codes hcodes, hperform]
            exact he
      · exact .inr (finish_uncoded hcoded)

end Effect

end State

namespace Trace

variable {script : List UInt8} {r : Felt} {stack : Stack}

/-- A script that leads to registers has a trace, and its last row shows them. -/
theorem ofStack_of_finish {final : Registers} (hfit : script.length ≤ maxScriptSize)
    (h : (State.initial r stack).finish script = .ok (final.state r)) :
    ∃ trace, ofStack script r stack = .ok trace ∧ trace.lastRow.registers = final := by
  rw [← State.run_map_snd _ _ (suffixes r script).tail] at h
  cases hrun : (State.initial r stack).run script (suffixes r script).tail with
  | error e =>
    rw [hrun] at h
    cases h
  | ok out =>
    rw [hrun] at h
    obtain ⟨rows, last⟩ := out
    obtain rfl : last = final.state r := Except.ok.inj h
    refine ⟨{
      script
      challenge := r
      scriptCombination := (suffixes r script).headD 0
      rows := .initial script.length ((suffixes r script).headD 0) (.initial r stack) :: rows ++
        List.replicate (maxScriptSize - script.length) (.padding (final.state r) Opcode.nop) ++ [.padding (final.state r) 0] },
      ?_, congrArg Row.registers (List.getLastD_concat ..)⟩
    unfold ofStack
    rw [if_neg (Nat.not_lt.mpr hfit)]
    change ((State.initial r stack).run script (suffixes r script).tail >>= _) = _
    rw [hrun]
    rfl

/-- A run that fails gives its error to the trace. -/
theorem ofStack_of_finish_error {e : Error} (hfit : script.length ≤ maxScriptSize)
    (h : (State.initial r stack).finish script = .error e) : ofStack script r stack = .error e := by
  rw [← State.run_map_snd _ _ (suffixes r script).tail] at h
  cases hrun : (State.initial r stack).run script (suffixes r script).tail with
  | ok out =>
    rw [hrun] at h
    cases h
  | error e' =>
    rw [hrun] at h
    obtain rfl : e' = e := Except.error.inj h
    unfold ofStack
    rw [if_neg (Nat.not_lt.mpr hfit)]
    change ((State.initial r stack).run script (suffixes r script).tail >>= _) = _
    rw [hrun]
    rfl

/-- A script of at most 520 bytes has a trace exactly when it is coded by instructions that can be performed. Then the last
row shows the registers after them, and otherwise the script or the stack is an invalid argument. -/
theorem ofStack_eq_execution (script : List UInt8) (r : Felt) (stack : Stack) (hfit : script.length ≤ 520) :
    ((∃ trace, ofStack script r stack = .ok trace) ↔
        ∃ is final, Decodes script is ∧ Registers.execute r ⟨stack, 0, 0⟩ is = some final) ∧
      (∀ trace is, ofStack script r stack = .ok trace → Decodes script is →
        Registers.execute r ⟨stack, 0, 0⟩ is = some trace.lastRow.registers) ∧
      ∀ e, ofStack script r stack = .error e → e.category = .argument ∧ e ≠ .endedInsidePush := by
  have hcases := State.finish_cases r ⟨stack, 0, 0⟩ script
  have hperformed : ∀ is final, Decodes script is → Registers.execute r ⟨stack, 0, 0⟩ is = some final →
      ∃ trace, ofStack script r stack = .ok trace ∧ trace.lastRow.registers = final := fun is final hdecodes hexecute =>
    ofStack_of_finish hfit (State.finish_of_decodes hdecodes hexecute)
  obtain ⟨is, final, hdecodes, hexecute⟩ | ⟨e, he, hcategory⟩ := hcases
  · obtain ⟨trace, htrace, hlast⟩ := hperformed is final hdecodes hexecute
    refine ⟨⟨fun _ => ⟨is, final, hdecodes, hexecute⟩, fun _ => ⟨trace, htrace⟩⟩, ?_, ?_⟩
    · intro trace' is' htrace' hdecodes'
      rw [htrace] at htrace'
      cases htrace'
      rw [← hdecodes.unique hdecodes', hexecute, hlast]
    · intro e he
      rw [htrace] at he
      cases he
  · have herror : ofStack script r stack = .error e := ofStack_of_finish_error hfit he
    have hnone : ∀ trace, ofStack script r stack ≠ .ok trace := by
      intro trace htrace
      rw [herror] at htrace
      cases htrace
    refine ⟨⟨?_, ?_⟩, ?_, ?_⟩
    · rintro ⟨trace, htrace⟩
      exact absurd htrace (hnone trace)
    · rintro ⟨is, final, hdecodes, hexecute⟩
      obtain ⟨trace, htrace, -⟩ := hperformed is final hdecodes hexecute
      exact ⟨trace, htrace⟩
    · exact fun trace is htrace => absurd htrace (hnone trace)
    · intro e' he'
      rw [herror] at he'
      cases he'
      refine ⟨hcategory, ?_⟩
      rintro rfl
      cases hcategory

/-- A script that pushes one byte has a trace that ends with the byte on top. -/
theorem ofStack_eq_execution_pushByte :
    ([0x01, 0x07] : List UInt8).length ≤ 520 ∧
      ∃ trace, ofStack [0x01, 0x07] 9 .empty = .ok trace ∧ trace.lastRow.registers = ⟨Stack.empty.push 7, 0, 0⟩ := by
  have hfit : ([0x01, 0x07] : List UInt8).length ≤ 520 := by decide
  have hcodes : (Instruction.push [0x07]).Codes [0x01, 0x07] := .pushBytes (by decide) rfl
  have hdecodes : Decodes [0x01, 0x07] [.push [0x07]] := .cons hcodes .nil
  have hexecute : Registers.execute 9 ⟨.empty, 0, 0⟩ [.push [0x07]] = some ⟨Stack.empty.push 7, 0, 0⟩ := by decide
  obtain ⟨hreturns, hfinal, -⟩ := ofStack_eq_execution [0x01, 0x07] 9 .empty hfit
  obtain ⟨trace, htrace⟩ := hreturns.mpr ⟨_, _, hdecodes, hexecute⟩
  refine ⟨hfit, trace, htrace, ?_⟩
  have hlast := hfinal trace _ htrace hdecodes
  rw [hexecute] at hlast
  exact (Option.some.inj hlast).symm

end Trace

end ScriptCircuit
