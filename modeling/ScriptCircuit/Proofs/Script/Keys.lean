import Mathlib
import ScriptCircuit.Proofs.Field.Combination
import ScriptCircuit.Proofs.Script.Instruction
import ScriptCircuit.Script.Keys

/-!
# The replay of a script in its registers

The replay that gathers the keys of a script keeps a list of items where the interpreter keeps a stack of elements. Every
instruction that the replay executes has, on the elements of its items, the effect that the interpreter's registers show, so
a replay that returns keys is one of a script that has a trace, and the trace folds those keys in order.
-/

namespace ScriptCircuit

open Combination MatrixAux RunAux

namespace Stack

/-- Items below the last slot are not seen. -/
theorem ofList_take (xs : List Felt) : ofList (xs.take stackDepth) = ofList xs := by
  refine Vector.ext fun i hi => ?_
  rw [getElem_ofList, getElem_ofList, List.getD_eq_getElem?_getD, List.getD_eq_getElem?_getD, List.getElem?_take_of_lt hi]

/-- A push puts an item in front of the list. -/
theorem push_ofList (xs : List Felt) (x : Felt) : (ofList xs).push x = ofList (x :: xs) := by
  refine Vector.ext fun i hi => ?_
  rw [getElem_push, getElem_ofList (x :: xs) i hi]
  by_cases hzero : i = 0
  · subst hzero
    rfl
  · obtain ⟨i, rfl⟩ := Nat.exists_eq_succ_of_ne_zero hzero
    rw [if_neg hzero, List.getD_cons_succ]
    exact getElem_ofList xs i (Nat.lt_of_succ_lt hi)

/-- What a pop moves up into the last slot is the zero below a full list. -/
theorem pop_ofList {xs : List Felt} {x : Felt} (hlength : (x :: xs).length ≤ stackDepth) : (ofList (x :: xs)).pop = ofList xs := by
  refine Vector.ext fun i hi => ?_
  rw [getElem_pop, getElem_ofList]
  by_cases hbelow : i + 1 < stackDepth
  · rw [dif_pos hbelow, getElem_ofList, List.getD_cons_succ]
  · rw [List.length_cons] at hlength
    rw [dif_neg hbelow, List.getD_eq_default _ _ (by omega)]

theorem top_ofList (xs : List Felt) (x : Felt) : (ofList (x :: xs)).top = x :=
  getElem_ofList (x :: xs) 0 stackDepth_pos

/-- A check takes the two items on top and puts its flag there. -/
theorem flag_ofList {xs : List Felt} {x y : Felt} (flag : Felt) (hlength : (x :: y :: xs).length ≤ stackDepth) :
    ((ofList (x :: y :: xs)).pop.pop.push flag) = ofList (flag :: xs) := by
  rw [pop_ofList hlength, pop_ofList (Nat.le_of_succ_le hlength), push_ofList]

end Stack

/-- Bytes that are not empty stand for their combination. -/
theorem Item.toFelt_data (r : Felt) {bytes : List UInt8} (h : bytes ≠ []) : (Item.data bytes).toFelt r = horner r 0 bytes := by
  cases bytes with
  | nil => exact absurd rfl h
  | cons b rest => rfl

/-- One byte is its own combination. -/
theorem Combination.horner_singleton (r : Felt) (b : UInt8) : horner r 0 [b] = .ofByte b := by
  change r * 0 + Felt.ofByte b = _
  rw [mul_zero, zero_add]

namespace Keys

/-- The registers that show the items and the keys of a replay. -/
def Replay.registers (r : Felt) (s : Replay) : Registers where
  stack := .ofList (s.items.map (·.toFelt r))
  keyAcc := keyFold r (s.keys.reverse.map (·.bytes))
  checks := s.keys.length

section Step

variable {r : Felt} {s next : Replay} {position : Nat}

theorem Replay.length_push (s : Replay) (item : Item) : (s.push item).items.length ≤ stackDepth :=
  List.length_take_le ..

/-- A push of the replay is one of the registers. -/
theorem Replay.registers_push (r : Felt) (s : Replay) (item : Item) :
    (s.push item).registers r = { s.registers r with stack := (s.registers r).stack.push (item.toFelt r) } := by
  simp only [registers, push, Stack.push_ofList, List.map_take, Stack.ofList_take, List.map_cons]

/-- A check of a signature that the replay accepts has its effect on the registers, with a key that is never empty. -/
theorem Replay.registers_checkSignature (hlength : s.items.length ≤ stackDepth) (h : s.checkSignature position = .ok next) :
    (s.registers r).checkSignature r = some (next.registers r) ∧ next.items.length ≤ stackDepth := by
  obtain ⟨items, keys⟩ := s
  unfold checkSignature at h
  dsimp only at h
  split at h
  next key signature rest =>
    have hflag : getElem ((registers r ⟨key :: signature :: rest, keys⟩).stack) 1 one_lt_stackDepth = signature.toFelt r :=
      Stack.getElem_ofList _ 1 one_lt_stackDepth
    have hstack : ∀ flag, ((registers r ⟨key :: signature :: rest, keys⟩).stack.pop.pop.push flag) =
        .ofList (flag :: rest.map (·.toFelt r)) := by
      intro flag
      refine Stack.flag_ofList flag ?_
      rw [List.length_cons, List.length_cons, List.length_map]
      exact hlength
    have hfits : ∀ flag : Item, (flag :: rest).length ≤ stackDepth := fun flag => Nat.le_of_succ_le hlength
    unfold Registers.checkSignature
    rw [hflag, hstack, hstack]
    cases signature with
    | data bytes => cases h
    | invalidSignature =>
      cases h
      exact ⟨if_pos rfl, hfits _⟩
    | validSignature =>
      cases key with
      | invalidSignature | validSignature => cases h
      | data bytes =>
        obtain ⟨parsed, hparse, hnext⟩ := except_bind_eq_ok.mp h
        cases hnext
        have hne : bytes ≠ [] := by
          rintro rfl
          cases hparse
        have hone : (1 : Felt) ≠ 0 := by decide
        refine ⟨(if_neg hone).trans ((if_pos rfl).trans (congrArg some ?_)), hfits _⟩
        have htop : (registers r ⟨.data bytes :: .validSignature :: rest, keys⟩).stack.top = horner r 0 bytes :=
          (Stack.top_ofList _ _).trans (Item.toFelt_data r hne)
        have hfold : keyFold r ((⟨bytes, parsed⟩ :: keys).reverse.map (·.bytes)) =
            keyFold r (keys.reverse.map (·.bytes)) * r + horner r 0 bytes := by
          rw [List.reverse_cons, List.map_append, List.map_singleton, keyFold_concat]
        rw [htop]
        unfold registers
        dsimp only
        rw [hfold]
        rfl
  next => cases h

/-- An instruction that the replay executes has its effect on the registers. -/
theorem Replay.registers_execute {i : Instruction} {bytes : List UInt8} (hcodes : i.Codes bytes)
    (hlength : s.items.length ≤ stackDepth) (h : s.execute position i = .ok next) :
    (s.registers r).perform r i = some (next.registers r) ∧ next.items.length ≤ stackDepth := by
  cases hcodes with
  | @single opcode hopcode =>
    have hclass := Instruction.class_eq_of_single hopcode
    unfold execute at h
    dsimp only at h
    rw [Registers.perform]
    by_cases hempty : opcode = 0x00
    · rw [if_pos hempty] at hclass
      rw [hclass] at h
      cases h
      rw [if_pos hempty, registers_push]
      exact ⟨rfl, length_push ..⟩
    · rw [if_neg hempty] at hclass
      rw [if_neg hempty]
      by_cases hnumber : 0x51 ≤ opcode ∧ opcode ≤ 0x60
      · rw [if_pos hnumber] at hclass
        rw [hclass] at h
        cases h
        rw [if_pos hnumber, registers_push, Item.toFelt_data r (List.cons_ne_nil _ _), ← State.ofByte_sub_reserved hnumber,
          horner_singleton]
        exact ⟨rfl, length_push ..⟩
      · rw [if_neg hnumber] at hclass
        rw [if_neg hnumber]
        by_cases hcheck : opcode = 0xac
        · rw [if_pos hcheck] at hclass
          rw [hclass] at h
          rw [if_pos hcheck]
          exact registers_checkSignature hlength h
        · rw [if_neg hcheck] at hclass
          rw [hclass] at h
          cases h
          rw [if_neg hcheck]
          exact ⟨rfl, hlength⟩
  | @pushBytes opcode data hopcode hcount =>
    cases h
    have hne : data ≠ [] := by
      rintro rfl
      obtain rfl : opcode = 0 := UInt8.toNat_inj.mp hcount.symm
      exact absurd hopcode.1 (by decide)
    rw [registers_push, Item.toFelt_data r hne]
    exact ⟨rfl, length_push ..⟩
  | pushData hopcode hpos hcount =>
    cases h
    rw [registers_push, Item.toFelt_data r (List.length_pos_iff.mp hpos)]
    exact ⟨rfl, length_push ..⟩

end Step

/-- A replay takes an instruction and goes on behind it. -/
theorem Replay.run_cons {s next : Replay} {position : Nat} {opcode : UInt8} {rest last : List UInt8} {i : Instruction}
    (hread : Instruction.read (position + 1) opcode rest = .ok (i, last)) (hexecute : s.execute position i = .ok next) :
    s.run position (opcode :: rest) = next.run (position + 1 + rest.length - last.length) last := by
  rw [run]
  split
  next h =>
    rw [hread] at h
    cases h
  next h =>
    rw [hread] at h
    cases h
    rw [hexecute]

/-- A script that is replayed is coded by instructions, and their effects lead to the registers the replay ends with. -/
theorem Replay.registers_run {r : Felt} {s final : Replay} {position : Nat} {script : List UInt8}
    (hlength : s.items.length ≤ stackDepth) (h : s.run position script = .ok final) :
    ∃ is, Decodes script is ∧ (s.registers r).execute r is = some (final.registers r) := by
  fun_induction Replay.run s position script with
  | case1 s position => 
    cases h
    exact ⟨[], .nil, rfl⟩
  | case2 => cases h
  | case3 => cases h
  | case4 s position opcode rest out hread next hexecute hle ih =>
    obtain ⟨i, last⟩ := out
    obtain ⟨bytes, hcodes, rfl⟩ := Instruction.read_eq_ok.mp hread
    obtain ⟨hperform, hfits⟩ := registers_execute (r := r) hcodes hlength hexecute
    obtain ⟨is, hdecodes, hrest⟩ := ih hfits h
    refine ⟨i :: is, ?_, Option.bind_eq_some_iff.mpr ⟨_, hperform, hrest⟩⟩
    exact .cons hcodes hdecodes

/-! ## The bytes of the keys -/

/-- A check of a signature gathers a key that is read from its bytes. -/
theorem Replay.parsed_checkSignature {s next : Replay} {position : Nat}
    (hkeys : ∀ k ∈ s.keys, PublicKey.parse k.bytes = .ok k.key) (h : s.checkSignature position = .ok next) :
    ∀ k ∈ next.keys, PublicKey.parse k.bytes = .ok k.key := by
  unfold checkSignature at h
  split at h
  next key signature rest hitems =>
    cases signature with
    | data bytes => cases h
    | invalidSignature =>
      cases h
      exact hkeys
    | validSignature =>
      cases key with
      | invalidSignature | validSignature => cases h
      | data bytes =>
        obtain ⟨parsed, hparse, hnext⟩ := except_bind_eq_ok.mp h
        cases hnext
        exact List.forall_mem_cons.mpr ⟨hparse, hkeys⟩
  next => cases h

/-- An instruction collects parsed keys only. -/
theorem Replay.parsed_execute {s next : Replay} {position : Nat} {i : Instruction}
    (hkeys : ∀ k ∈ s.keys, PublicKey.parse k.bytes = .ok k.key) (h : s.execute position i = .ok next) :
    ∀ k ∈ next.keys, PublicKey.parse k.bytes = .ok k.key := by
  unfold execute at h
  split at h
  next =>
    cases h
    exact hkeys
  next =>
    split at h
    next =>
      cases h
      exact hkeys
    next =>
      cases h
      exact hkeys
    next => exact parsed_checkSignature hkeys h
    next =>
      cases h
      exact hkeys

/-- All keys that a replay gathers are read from their bytes. -/
theorem Replay.parsed_run {s final : Replay} {position : Nat} {script : List UInt8}
    (hkeys : ∀ k ∈ s.keys, PublicKey.parse k.bytes = .ok k.key) (h : s.run position script = .ok final) :
    ∀ k ∈ final.keys, PublicKey.parse k.bytes = .ok k.key := by
  fun_induction Replay.run s position script with
  | case1 =>
    cases h
    exact hkeys
  | case2 => cases h
  | case3 => cases h
  | case4 s position opcode rest out hread next hexecute hle ih => exact ih (parsed_execute hkeys hexecute) h

/-- All collected keys are parsed. -/
theorem parsed_of_collect {script : List UInt8} {items : List Item} {keys : List ConsumedKey}
    (h : collect script items = .ok keys) : ∀ k ∈ keys, PublicKey.parse k.bytes = .ok k.key := by
  obtain ⟨final, hreplay, hkeys⟩ := except_bind_eq_ok.mp h
  obtain rfl := Except.ok.inj hkeys
  intro k hk
  exact Replay.parsed_run (List.forall_mem_nil _) (ite_throw_eq_ok.mp hreplay).2 k (List.mem_reverse.mp hk)

end Keys

/-- A script that is replayed over a stack that holds its items has a trace, whose last row shows what the replay ends with. -/
theorem Trace.exists_of_replay {script : List UInt8} {items : List Item} {final : Keys.Replay} (r : Felt)
    (hitems : items.length ≤ stackDepth) (h : Keys.replay script items = .ok final) :
    ∃ trace, ofItems script r items = .ok trace ∧ trace.lastRow.registers = final.registers r := by
  obtain ⟨hfit, hrun⟩ := ite_throw_eq_ok.mp h
  obtain ⟨is, hdecodes, hexecute⟩ := Keys.Replay.registers_run (r := r) (List.length_take_le ..) hrun
  rw [List.take_of_length_le hitems] at hexecute
  obtain ⟨trace, htrace, hlast⟩ := ofStack_of_finish (Nat.not_lt.mp hfit) (State.finish_of_decodes hdecodes hexecute)
  exact ⟨trace, except_bind_eq_ok.mpr ⟨_, ite_throw_eq_ok.mpr ⟨Nat.not_lt.mpr hitems, rfl⟩, htrace⟩, hlast⟩

/-- The registers after a replay count its keys and fold them in order. -/
theorem Keys.registers_of_collect {script : List UInt8} {items : List Item} {keys : List ConsumedKey} (r : Felt)
    (h : collect script items = .ok keys) :
    ∃ final, replay script items = .ok final ∧ (final.registers r).checks = keys.length ∧
      (final.registers r).keyAcc = keyFold r (keys.map (·.bytes)) := by
  obtain ⟨final, hreplay, hkeys⟩ := except_bind_eq_ok.mp h
  obtain rfl := Except.ok.inj hkeys
  exact ⟨final, hreplay, List.length_reverse.symm, rfl⟩

/-- A script whose replay over at most 33 items gathers keys has a trace over the same items. The trace counts those keys and
folds them in order, and its stack ends with the elements of the items that the replay ends with. -/
theorem Trace.ofItems_of_collect {script : List UInt8} {items : List Item} {keys : List ConsumedKey} (r : Felt)
    (hitems : items.length ≤ 33) (h : Keys.collect script items = .ok keys) :
    ∃ trace final, ofItems script r items = .ok trace ∧ Keys.replay script items = .ok final ∧
      trace.lastRow.checks = keys.length ∧
      trace.lastRow.keyAcc = keyFold r (keys.map (·.bytes)) ∧
      ∀ (i : Nat) (hi : i < 33), trace.lastRow.stack[i] = (final.items[i]?.map (·.toFelt r)).getD 0 := by
  obtain ⟨final, hreplay, hchecks, hkeyAcc⟩ := Keys.registers_of_collect r h
  obtain ⟨trace, htrace, hlast⟩ := exists_of_replay r hitems hreplay
  refine ⟨trace, final, htrace, hreplay, ?_, ?_, ?_⟩
  · exact (congrArg Registers.checks hlast).trans hchecks
  · exact (congrArg Registers.keyAcc hlast).trans hkeyAcc
  · intro i hi
    have hstack : trace.lastRow.stack = .ofList (final.items.map (·.toFelt r)) := congrArg Registers.stack hlast
    rw [hstack, Stack.getElem_ofList _ i hi, List.getD_eq_getElem?_getD, List.getElem?_map]

/-- A script that pushes the serial generator and checks a signature. -/
def Keys.generatorScript : List UInt8 :=
  0x41 :: (PublicKey.generator.serialize false ++ [0xac])

/-- The script that checks one signature under the generator collects this key. -/
theorem Keys.collect_generatorScript :
    collect generatorScript [.validSignature] = .ok [⟨PublicKey.generator.serialize false, PublicKey.generator⟩] := by
  have hpush : Instruction.read 1 0x41 (PublicKey.generator.serialize false ++ [0xac]) =
      .ok (.push (PublicKey.generator.serialize false), [0xac]) := by decide +kernel
  have hparse : PublicKey.parse (PublicKey.generator.serialize false) = .ok PublicKey.generator := by decide +kernel
  have hcheck : Instruction.read 67 0xac [] = .ok (.single 0xac, []) := by decide
  have hexecute : Replay.execute ⟨[.data (PublicKey.generator.serialize false), .validSignature], []⟩ 66 (.single 0xac) =
      .ok ⟨[.validSignature], [⟨PublicKey.generator.serialize false, PublicKey.generator⟩]⟩ :=
    except_bind_eq_ok.mpr ⟨_, hparse, rfl⟩
  refine except_bind_eq_ok.mpr ⟨⟨[.validSignature], [⟨PublicKey.generator.serialize false, PublicKey.generator⟩]⟩,
    (if_neg (by decide)).trans ?_, rfl⟩
  exact (Replay.run_cons hpush rfl).trans ((Replay.run_cons hcheck hexecute).trans (Replay.run.eq_1 ..))

/-- A script that checks a valid signature under the generator has a trace that counts one key. -/
theorem Trace.ofItems_of_collect_generator :
    ([Item.validSignature].length ≤ 33 ∧ Keys.collect Keys.generatorScript [.validSignature] =
        .ok [⟨PublicKey.generator.serialize false, PublicKey.generator⟩]) ∧
      ∃ trace, ofItems Keys.generatorScript 7 [.validSignature] = .ok trace ∧ trace.lastRow.checks = 1 := by
  have hitems : [Item.validSignature].length ≤ 33 := by decide
  obtain ⟨trace, final, htrace, -, hchecks, -⟩ := ofItems_of_collect 7 hitems Keys.collect_generatorScript
  exact ⟨⟨hitems, Keys.collect_generatorScript⟩, trace, htrace, hchecks⟩

end ScriptCircuit
