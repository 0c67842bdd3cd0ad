import Mathlib
import ScriptCircuit.Proofs.Curve.PublicKey
import ScriptCircuit.Proofs.Script.Keys

/-!
# Where the replay is stricter than the trace

A script with a trace is coded by instructions, so the replay that gathers its keys reads them all and can fail only where it
checks a signature. Up to that check its items stand for the stack of the trace, so a data item that the replay finds in
place of a signature is one that the trace takes for a flag.
-/

namespace ScriptCircuit

open MatrixAux RunAux

/-- The errors that are about the size of a script or about how its pushes are coded. -/
def Error.IsCoding : Error → Prop
  | .replayTooLong _ => True
  | .pushPastEnd .. => True
  | .zeroLengthPush => True
  | _ => False

/-- No key fails to be read for how a push is coded. -/
theorem PublicKey.parse_error {bytes : List UInt8} {e : Error} (h : parse bytes = .error e) : ¬e.IsCoding := by
  obtain rfl | ⟨_, rfl⟩ | ⟨_, _, _, rfl⟩ | rfl := parse_error_cases h <;> exact id

namespace Keys

/-- A replay before what is left of a script comes to stand before another rest. -/
inductive Replay.Reaches : Replay → Nat → List UInt8 → Replay → Nat → List UInt8 → Prop where
  | here {s : Replay} {position : Nat} {script : List UInt8} : Reaches s position script s position script
  | later {s next t : Replay} {position position' : Nat} {opcode : UInt8} {i : Instruction} {rest last script : List UInt8}
      (hread : Instruction.read (position + 1) opcode rest = .ok (i, last)) (hexecute : s.execute position i = .ok next)
      (hreaches : Reaches next (position + 1 + rest.length - last.length) last t position' script) :
      Reaches s position (opcode :: rest) t position' script

/-- The replay of a script reaches a check of a signature, at a position of the script. -/
def ReachesCheck (script : List UInt8) (items : List Item) (position : Nat) (s : Replay) : Prop :=
  ∃ rest, Replay.Reaches ⟨items.take stackDepth, []⟩ 0 script s position (0xac :: rest)

/-- What a check of a signature does not accept: fewer than two items, data in place of the signature, and below a valid
signature's key a signature, or bytes that no key can be read from. -/
def Replay.Refuses (s : Replay) : Prop :=
  s.items.length < 2 ∨ (∃ bytes, s.items[1]? = some (.data bytes)) ∨
    s.items[1]? = some .validSignature ∧
      ((∃ key, s.items[0]? = some key ∧ key.isSignature) ∨
        ∃ bytes e, s.items[0]? = some (.data bytes) ∧ PublicKey.parse bytes = .error e)

namespace Replay

variable {s next t : Replay} {position position' : Nat} {e : Error} {script : List UInt8}

/-- A check fails exactly on what it does not accept. -/
theorem checkSignature_fails_iff : (∃ e, s.checkSignature position = .error e) ↔ s.Refuses := by
  obtain ⟨items, keys⟩ := s
  match items with
  | [] => exact iff_of_true ⟨_, rfl⟩ (.inl (by simp))
  | [_] => exact iff_of_true ⟨_, rfl⟩ (.inl (by simp))
  | key :: .data bytes :: rest => exact iff_of_true ⟨_, rfl⟩ (.inr (.inl ⟨bytes, rfl⟩))
  | key :: .invalidSignature :: rest =>
    refine iff_of_false (by rintro ⟨e, h⟩; cases h) ?_
    rintro (h | ⟨bytes, h⟩ | ⟨h, -⟩)
    · simp at h
    · cases h
    · cases h
  | .invalidSignature :: .validSignature :: rest => exact iff_of_true ⟨_, rfl⟩ (.inr (.inr ⟨rfl, .inl ⟨_, rfl, rfl⟩⟩))
  | .validSignature :: .validSignature :: rest => exact iff_of_true ⟨_, rfl⟩ (.inr (.inr ⟨rfl, .inl ⟨_, rfl, rfl⟩⟩))
  | .data bytes :: .validSignature :: rest =>
    have hcheck : checkSignature ⟨.data bytes :: .validSignature :: rest, keys⟩ position =
        PublicKey.parse bytes >>= fun key => pure ⟨.validSignature :: rest, ⟨bytes, key⟩ :: keys⟩ := rfl
    rw [hcheck]
    cases hparse : PublicKey.parse bytes with
    | error e => exact iff_of_true ⟨_, rfl⟩ (.inr (.inr ⟨rfl, .inr ⟨bytes, e, rfl, hparse⟩⟩))
    | ok key =>
      refine iff_of_false (by rintro ⟨e, h⟩; cases h) ?_
      rintro (h | ⟨bytes', h⟩ | ⟨-, ⟨key', h, hkey⟩ | ⟨bytes', e, h, hfails⟩⟩)
      · simp at h
      · cases h
      · cases h
        cases hkey
      · cases h
        rw [hparse] at hfails
        cases hfails

/-- A check does not fail for how a push is coded. -/
theorem checkSignature_error (h : s.checkSignature position = .error e) : ¬e.IsCoding := by
  unfold checkSignature at h
  split at h
  next =>
    split at h
    next =>
      cases h
      exact id
    next => cases h
    next =>
      obtain h | ⟨key, -, h⟩ := except_bind_eq_error.mp h
      · exact PublicKey.parse_error h
      · cases h
    next =>
      cases h
      exact id
  next =>
    cases h
    exact id

/-- Of all instructions only a check of a signature can fail. -/
theorem execute_eq_error {i : Instruction} :
    s.execute position i = .error e ↔ i = .single 0xac ∧ s.checkSignature position = .error e := by
  cases i with
  | push data => exact iff_of_false (by nofun) (by nofun)
  | single opcode =>
    have hclass : Opcode.class? opcode = some .checkSignature ↔ opcode = 0xac := by
      unfold Opcode.class?
      grind
    rw [Instruction.single.injEq]
    by_cases hcheck : opcode = 0xac
    · rw [and_iff_right hcheck, execute, hclass.mpr hcheck]
    · refine iff_of_false (fun h => ?_) fun h => hcheck h.1
      unfold execute at h
      dsimp only at h
      split at h
      next => cases h
      next => cases h
      next hsome => exact hcheck (hclass.mp hsome)
      next => cases h

/-- A signature check is an instruction on its own. -/
theorem read_check {rest last : List UInt8} {i : Instruction} (hread : Instruction.read position 0xac rest = .ok (i, last)) :
    i = .single 0xac ∧ last = rest := by
  rw [Instruction.read_single (by decide)] at hread
  cases hread
  exact ⟨rfl, rfl⟩

/-- A script that leads somewhere starts with an instruction. What the replay makes of it are the registers behind it, from
which the rest leads to the same end. -/
theorem finish_read {r : Felt} {final : State} {opcode : UInt8} {rest : List UInt8} (position : Nat)
    (hlength : s.items.length ≤ stackDepth)
    (hfinish : ((s.registers r).state r).finish (opcode :: rest) = .ok final) :
    ∃ i last, Instruction.read (position + 1) opcode rest = .ok (i, last) ∧ ∀ next, s.execute position i = .ok next →
      next.items.length ≤ stackDepth ∧ ((next.registers r).state r).finish last = .ok final := by
  by_cases hcoded : ∃ (i : Instruction) (bytes last : List UInt8), i.Codes (opcode :: bytes) ∧ rest = bytes ++ last
  · obtain ⟨i, bytes, last, hcodes, rfl⟩ := hcoded
    refine ⟨i, last, Instruction.read_eq_ok.mpr ⟨bytes, hcodes, rfl⟩, fun next hexecute => ?_⟩
    obtain ⟨hperform, hfits⟩ := registers_execute (r := r) hcodes hlength hexecute
    rw [← List.cons_append, State.finish_codes hcodes, hperform] at hfinish
    exact ⟨hfits, hfinish⟩
  · obtain ⟨e, he, -⟩ := State.finish_uncoded (r := r) (m := s.registers r) hcoded
    rw [hfinish] at he
    cases he

/-- A replay that reaches a place finishes as the run does from there. -/
theorem Reaches.finish {r : Felt} {final : State} {rest : List UInt8} (h : Reaches s position script t position' rest)
    (hlength : s.items.length ≤ stackDepth) (hfinish : ((s.registers r).state r).finish script = .ok final) :
    t.items.length ≤ stackDepth ∧ ((t.registers r).state r).finish rest = .ok final := by
  induction h with
  | here => exact ⟨hlength, hfinish⟩
  | @later s next t position position' opcode i rest last script hread hexecute hreaches ih =>
    obtain ⟨i', last', hread', hnext⟩ := finish_read position hlength hfinish
    cases hread.symm.trans hread'
    obtain ⟨hfits, hrest⟩ := hnext next hexecute
    exact ih hfits hrest

/-- A replay of a script that leads somewhere from the registers it shows fails exactly at a check that it reaches. -/
theorem run_eq_error {r : Felt} {final : State} (hlength : s.items.length ≤ stackDepth)
    (hfinish : ((s.registers r).state r).finish script = .ok final) :
    s.run position script = .error e ↔
      ∃ t position' rest, Reaches s position script t position' (0xac :: rest) ∧ t.checkSignature position' = .error e := by
  fun_induction Replay.run s position script with
  | case1 s position =>
    refine iff_of_false (fun hok => by cases hok) ?_
    rintro ⟨t, position', rest, hreaches, -⟩
    cases hreaches
  | case2 s position opcode rest e' hread =>
    -- A script that leads somewhere from these registers has no opcode that cannot be read.
    obtain ⟨i, last, hread', -⟩ := finish_read position hlength hfinish
    rw [hread] at hread'
    cases hread'
  | case3 s position opcode rest out hread e' hexecute =>
    obtain ⟨i, last⟩ := out
    obtain ⟨rfl, hcheck⟩ := execute_eq_error.mp hexecute
    obtain ⟨bytes, hcodes, -⟩ := Instruction.read_eq_ok.mp hread
    cases hcodes with
    | single hopcode =>
      constructor
      · intro h
        cases h
        exact ⟨s, position, rest, .here, hcheck⟩
      · rintro ⟨t, position', rest', hreaches, hfails⟩
        cases hreaches with
        | here => exact hcheck.symm.trans hfails
        | later hread' hexecute' hreaches =>
          cases hread.symm.trans hread'
          cases hexecute.symm.trans hexecute'
  | case4 s position opcode rest out hread next hexecute hle ih =>
    obtain ⟨i, last⟩ := out
    obtain ⟨i', last', hread', hnext⟩ := finish_read position hlength hfinish
    cases hread.symm.trans hread'
    obtain ⟨hfits, hrest⟩ := hnext next hexecute
    rw [ih hfits hrest]
    constructor
    · rintro ⟨t, position', rest', hreaches, hfails⟩
      exact ⟨t, position', rest', .later hread hexecute hreaches, hfails⟩
    · rintro ⟨t, position', rest', hreaches, hfails⟩
      cases hreaches with
      | here =>
        obtain ⟨rfl, rfl⟩ := read_check hread
        rw [execute_eq_error.mpr ⟨rfl, hfails⟩] at hexecute
        cases hexecute
      | later hread' hexecute' hreaches =>
        cases hread.symm.trans hread'
        cases hexecute.symm.trans hexecute'
        exact ⟨t, position', rest', hreaches, hfails⟩

/-- What the flag of a check that does not stop a trace can be. -/
theorem flag_of_finish {r : Felt} {final : State} {rest : List UInt8} {item : Item} (hitem : s.items[1]? = some item)
    (hfinish : ((s.registers r).state r).finish (0xac :: rest) = .ok final) : item.toFelt r = 0 ∨ item.toFelt r = 1 := by
  have hcodes : (Instruction.single 0xac).Codes [0xac] := .single (by decide)
  have hflag : getElem (s.registers r).stack 1 one_lt_stackDepth = item.toFelt r := by
    have hstack : (s.registers r).stack = .ofList (s.items.map (·.toFelt r)) := rfl
    rw [hstack, Stack.getElem_ofList _ 1 one_lt_stackDepth, List.getD_eq_getElem?_getD, List.getElem?_map, hitem]
    rfl
  have hperform : (s.registers r).perform r (.single 0xac) = (s.registers r).checkSignature r := by
    rw [Registers.perform, if_neg (by decide), if_neg (by decide), if_pos rfl]
  rw [← List.singleton_append, State.finish_codes hcodes, hperform, Registers.checkSignature, hflag] at hfinish
  by_cases hzero : item.toFelt r = 0
  · exact .inl hzero
  · by_cases hone : item.toFelt r = 1
    · exact .inr hone
    · rw [if_neg hzero, if_neg hone] at hfinish
      cases hfinish

end Replay

/-- A script with a trace fits into the execution region, and its items into the stack; from the registers of its items it
leads to the end of the trace. -/
theorem finish_of_ofItems {script : List UInt8} {items : List Item} {r : Felt} {trace : Trace}
    (h : Trace.ofItems script r items = .ok trace) :
    script.length ≤ maxScriptSize ∧ items.length ≤ stackDepth ∧
      ∃ final, ((Replay.registers r ⟨items.take stackDepth, []⟩).state r).finish script = .ok final := by
  obtain ⟨stack, hstack, htrace⟩ := except_bind_eq_ok.mp h
  obtain ⟨hitems, hstack⟩ := ite_throw_eq_ok.mp hstack
  obtain rfl : .ofList (items.map (·.toFelt r)) = stack := Except.ok.inj hstack
  have hfit := (Trace.ofStack_eq_ok.mp htrace).1
  refine ⟨hfit, Nat.not_lt.mp hitems, ?_⟩
  have hregisters : (Replay.registers r ⟨items.take stackDepth, []⟩).state r =
      .initial r (.ofList (items.map (·.toFelt r))) := by
    rw [List.take_of_length_le (Nat.not_lt.mp hitems)]
    rfl
  rw [hregisters]
  cases hfinish : (State.initial r (.ofList (items.map (·.toFelt r)))).finish script with
  | ok final => exact ⟨final, rfl⟩
  | error e =>
    rw [Trace.ofStack_of_finish_error hfit hfinish] at htrace
    cases htrace

/-- Where a script has a trace, the replay that gathers its keys fails exactly at a check that it reaches and that is over
fewer than two items, over data in place of a signature, which the trace took for the flag zero or one, or over a valid
signature whose key is a signature or cannot be read. It fails with the error of that check, never for how the script's
pushes are coded. -/
theorem collect_fails_iff {script : List UInt8} {items : List Item} {r : Felt} {trace : Trace}
    (h : Trace.ofItems script r items = .ok trace) :
    ((∃ e, collect script items = .error e) ↔ ∃ position s, ReachesCheck script items position s ∧ s.Refuses) ∧
      (∀ position s bytes, ReachesCheck script items position s → s.items[1]? = some (.data bytes) →
        (Item.data bytes).toFelt r = 0 ∨ (Item.data bytes).toFelt r = 1) ∧
      ∀ e, collect script items = .error e →
        ¬e.IsCoding ∧ ∃ position s, ReachesCheck script items position s ∧ s.checkSignature position = .error e := by
  obtain ⟨hfit, hitems, final, hfinish⟩ := finish_of_ofItems h
  have hlength : (items.take stackDepth).length ≤ stackDepth := List.length_take_le ..
  have hcollect : ∀ e, collect script items = .error e ↔
      ∃ position s, ReachesCheck script items position s ∧ s.checkSignature position = .error e := by
    intro e
    have hreplay : replay script items = Replay.run ⟨items.take stackDepth, []⟩ 0 script := if_neg (Nat.not_lt.mpr hfit)
    rw [collect, except_bind_eq_error, or_iff_left (by rintro ⟨s, -, hs⟩; cases hs), hreplay,
      Replay.run_eq_error hlength hfinish]
    constructor
    · rintro ⟨s, position, rest, hreaches, hfails⟩
      exact ⟨position, s, ⟨rest, hreaches⟩, hfails⟩
    · rintro ⟨position, s, ⟨rest, hreaches⟩, hfails⟩
      exact ⟨s, position, rest, hreaches, hfails⟩
  refine ⟨⟨?_, ?_⟩, ?_, ?_⟩
  · rintro ⟨e, he⟩
    obtain ⟨position, s, hreaches, hfails⟩ := (hcollect e).mp he
    exact ⟨position, s, hreaches, Replay.checkSignature_fails_iff.mp ⟨e, hfails⟩⟩
  · rintro ⟨position, s, hreaches, hrefuses⟩
    obtain ⟨e, hfails⟩ : ∃ e, s.checkSignature position = .error e := Replay.checkSignature_fails_iff.mpr hrefuses
    exact ⟨e, (hcollect e).mpr ⟨position, s, hreaches, hfails⟩⟩
  · rintro position s bytes ⟨rest, hreaches⟩ hdata
    exact Replay.flag_of_finish hdata (hreaches.finish hlength hfinish).2
  · intro e he
    obtain ⟨position, s, hreaches, hfails⟩ := (hcollect e).mp he
    exact ⟨Replay.checkSignature_error hfails, position, s, hreaches, hfails⟩

/-- A one below the key counts as a flag in the trace, while the replay asks for a signature there. -/
theorem collect_fails_iff_oneBelowKey :
    ∃ trace, Trace.ofItems [0xac] 7 [.data [5], .data [1]] = .ok trace ∧
      ∃ e, collect [0xac] [.data [5], .data [1]] = .error e ∧ ¬e.IsCoding := by
  have hcodes : (Instruction.single 0xac).Codes [0xac] := .single (by decide)
  have hexecute : Registers.execute 7 ⟨.ofList [5, 1], 0, 0⟩ [.single 0xac] = some ⟨.ofList [1], 5, 1⟩ := by decide
  obtain ⟨trace, htrace, -⟩ := Trace.ofStack_of_finish (by decide : [0xac].length ≤ maxScriptSize)
    (State.finish_of_decodes (.cons hcodes .nil) hexecute)
  have hitems : Trace.ofItems [0xac] 7 [.data [5], .data [1]] = .ok trace := htrace
  obtain ⟨hfails, -, herror⟩ := collect_fails_iff hitems
  obtain ⟨e, he⟩ := hfails.mpr ⟨0, _, ⟨[], .here⟩, .inr (.inl ⟨[1], rfl⟩)⟩
  exact ⟨trace, hitems, e, he, (herror e he).1⟩

end Keys

end ScriptCircuit
