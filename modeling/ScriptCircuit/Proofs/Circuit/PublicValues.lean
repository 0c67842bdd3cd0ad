import Mathlib
import ScriptCircuit.Circuit
import ScriptCircuit.Proofs.Field.Polynomial
import ScriptCircuit.Proofs.Script.Run

/-!
# The public values

The public values of a spend are computed from its script and its challenge alone. They are those of its trace, whose rows
take the bytes out of the combination one by one. They tell scripts of different lengths apart under every challenge, and two
scripts of one length under all challenges but fewer than this length: the challenges that they share are roots of a
polynomial whose coefficients are the differences of the bytes.
-/

namespace ScriptCircuit

open Combination

/-! ## The values of a trace -/

/-- The rows of a trace hold the suffixes of its script in order, and zeros behind them. -/
theorem Trace.map_scriptAcc {script : List UInt8} {r : Felt} {stack : Stack} {trace : Trace}
    (h : ofStack script r stack = .ok trace) :
    trace.rows.map Row.scriptAcc = suffixes r script ++ List.replicate (maxScriptSize + 1 - script.length) 0 := by
  obtain ⟨hfit, states, -, -, -, -, hlength, hrows⟩ := ofStack_eq_ok.mp h
  have hsize : maxScriptSize = 520 := rfl
  have hall : traceRows = 522 := rfl
  have hsuffixes := length_suffixes r script
  refine List.ext_getElem? fun i => ?_
  rw [List.getElem?_map]
  by_cases hi : i ≤ script.length
  · rw [hrows i (by omega), List.getElem?_append_left (by omega), getElem?_suffixes r hi]
    cases i with
    | zero => simp [rowAt, Row.initial]
    | succ i => simp [rowAt, State.rowOfByte, Nat.lt_of_succ_le hi]
  · by_cases hlast : i < traceRows
    · rw [hrows i hlast, List.getElem?_append_right (by omega), List.getElem?_replicate, if_pos (by omega), rowAt,
        if_neg (by omega), dif_neg (by omega)]
      rfl
    · rw [List.getElem?_eq_none (by omega), List.getElem?_eq_none (by simp; omega)]
      rfl

/-- The four folds of a byte string agree. In order, the first byte has the highest power and what the fold starts with the
power of the length; reversed, every byte has the power of its position, which is the fold in order of the reversed bytes; the
suffixes are the reversed folds of all tails; and the powers are the powers. So a spend that has a trace shows the public
values of the trace, whose rows hold the suffixes of the script. -/
theorem Combination.folds_agree :
    (∀ (bytes : List UInt8) (r start : Felt),
      horner r start bytes =
          start * r ^ bytes.length + ∑ i : Fin bytes.length, .ofByte (bytes.get i) * r ^ (bytes.length - 1 - i) ∧
        hornerReversed r bytes = ∑ i : Fin bytes.length, .ofByte (bytes.get i) * r ^ (i : Nat) ∧
        hornerReversed r bytes = horner r 0 bytes.reverse ∧
        (suffixes r bytes).length = bytes.length + 1 ∧
        (∀ i ≤ bytes.length, (suffixes r bytes)[i]? = some (hornerReversed r (bytes.drop i))) ∧
        ∀ count, ∀ k ≤ count, (powers r count)[k]? = some (r ^ k)) ∧
      ∀ (s : Spend) (t : Trace), Trace.ofItems s.script s.challenge s.items = .ok t →
        t.rows.map Row.scriptAcc =
            suffixes s.challenge s.script ++ List.replicate (maxScriptSize + 1 - s.script.length) 0 ∧
          (suffixes s.challenge s.script).head? = some t.scriptCombination ∧
          s.publicValues = [t.publicValues] := by
  refine ⟨fun bytes r start => ?_, fun s t htrace => ?_⟩
  · exact ⟨horner_eq_sum r start bytes, hornerReversed_eq_sum r bytes, hornerReversed_eq_horner r bytes, length_suffixes r bytes,
      fun i hi => getElem?_suffixes r hi, fun count k hk => getElem?_powers r hk⟩
  · obtain ⟨stack, -, hstack⟩ := MatrixAux.except_bind_eq_ok.mp htrace
    obtain ⟨-, -, -, -, -, ⟨hscript, hchallenge, hcombination⟩, -⟩ := Trace.ofStack_eq_ok.mp hstack
    refine ⟨Trace.map_scriptAcc hstack, ?_, ?_⟩
    · rw [List.head?_eq_getElem?, getElem?_suffixes _ (Nat.zero_le _), hcombination, List.drop_zero]
    · rw [Spend.publicValues, Trace.publicValues, hscript, hchallenge, hcombination]

/-- The push of a byte under the challenge 3 has a trace, and shows 1 + 3 * 7 as its combination. -/
theorem Combination.folds_agree_pushByte :
    ∃ t, Trace.ofItems [0x01, 0x07] 3 [] = .ok t ∧ t.publicValues = [2, 22, 3] ∧
      (⟨[0x01, 0x07], 3, [], []⟩ : Spend).publicValues = [t.publicValues] ∧
        (suffixes 3 [0x01, 0x07])[1]? = some (hornerReversed 3 [0x07]) ∧ (powers 3 64)[64]? = some (3 ^ 64) := by
  obtain ⟨t, ht, hvalues⟩ : ∃ t, Trace.ofItems [0x01, 0x07] 3 [] = .ok t ∧ t.publicValues = [2, 22, 3] :=
    ⟨_, rfl, by decide⟩
  obtain ⟨hbytes, hspends⟩ := folds_agree
  obtain ⟨-, -, -, -, hsuffixes, hpowers⟩ := hbytes [0x01, 0x07] 3 0
  exact ⟨t, ht, hvalues, (hspends ⟨[0x01, 0x07], 3, [], []⟩ t ht).2.2, hsuffixes 1 (by decide), hpowers 64 64 (Nat.le_refl _)⟩

/-! ## What the values bind -/

/-- Different byte strings of one length have the same reversed fold for fewer challenges than they have bytes. -/
theorem Combination.card_lt_of_hornerReversed_eq {bytes bytes' : List UInt8} (hlength : bytes.length = bytes'.length)
    (hne : bytes ≠ bytes') {s : Finset Felt} (hs : ∀ r ∈ s, hornerReversed r bytes = hornerReversed r bytes') :
    s.card < bytes.length := by
  have hbytes : bytes.map Felt.ofByte ≠ bytes'.map Felt.ofByte := fun h =>
    hne (List.map_injective_iff.mpr (fun _ _ hbyte => Felt.ofByte_inj.mp hbyte) h)
  have hcard := card_lt_of_evalAt_eq (by rw [List.length_map, List.length_map, hlength]) hbytes fun r hr => by
    rw [← hornerReversed_eq_evalAt, ← hornerReversed_eq_evalAt, hs r hr]
  rwa [List.length_map] at hcard

namespace Spend

/-- The public values show the length of a script that fits, its combination and the challenge. -/
theorem publicValues_eq_iff {a b : Spend} (ha : a.script.length ≤ maxScriptSize) (hb : b.script.length ≤ maxScriptSize) :
    a.publicValues = b.publicValues ↔
      a.script.length = b.script.length ∧ hornerReversed a.challenge a.script = hornerReversed b.challenge b.script ∧
        a.challenge = b.challenge := by
  have hfits : maxScriptSize < 18446744069414584321 := by decide
  have hlength : Felt.ofNat a.script.length = .ofNat b.script.length ↔ a.script.length = b.script.length :=
    Felt.natCast_inj (ha.trans_lt hfits) (hb.trans_lt hfits)
  simp only [publicValues, List.cons.injEq, and_true, hlength]

/-- Two different scripts of at most 520 bytes have the same public values under no challenge if their lengths differ, and
under at most `n - 1` challenges if both have `n` bytes. -/
theorem publicValues_bind_script (a b : Spend) (ha : a.script.length ≤ 520) (hb : b.script.length ≤ 520)
    (hne : a.script ≠ b.script) :
    (a.script.length ≠ b.script.length →
        ∀ r : Felt, ({ a with challenge := r } : Spend).publicValues ≠ ({ b with challenge := r } : Spend).publicValues) ∧
      ∀ n, a.script.length = n → b.script.length = n → ∀ s : Finset Felt,
        (∀ r ∈ s, ({ a with challenge := r } : Spend).publicValues = ({ b with challenge := r } : Spend).publicValues) →
          s.card ≤ n - 1 := by
  have hvalues : ∀ r : Felt,
      ({ a with challenge := r } : Spend).publicValues = ({ b with challenge := r } : Spend).publicValues ↔
        a.script.length = b.script.length ∧ hornerReversed r a.script = hornerReversed r b.script := by
    intro r
    have hiff := publicValues_eq_iff (a := { a with challenge := r }) (b := { b with challenge := r }) ha hb
    exact hiff.trans (and_congr_right fun _ => and_iff_left rfl)
  refine ⟨fun hlength r hsame => hlength ((hvalues r).mp hsame).1, ?_⟩
  rintro n rfl hn s hs
  have hcard := card_lt_of_hornerReversed_eq hn.symm hne fun r hr => ((hvalues r).mp (hs r hr)).2
  exact Nat.le_sub_one_of_lt hcard

/-- A number behind a no-operation and the same bytes the other way round share no more than one challenge, and they share
the challenge one. -/
theorem publicValues_bind_script_swapped :
    ([0x61, 0x51] : List UInt8) ≠ [0x51, 0x61] ∧
      (⟨[0x61, 0x51], 1, [], []⟩ : Spend).publicValues = (⟨[0x51, 0x61], 1, [], []⟩ : Spend).publicValues ∧
      ∀ s : Finset Felt,
        (∀ r ∈ s, (⟨[0x61, 0x51], r, [], []⟩ : Spend).publicValues = (⟨[0x51, 0x61], r, [], []⟩ : Spend).publicValues) →
          s.card ≤ 1 := by
  have hne : ([0x61, 0x51] : List UInt8) ≠ [0x51, 0x61] := by decide
  obtain ⟨-, hfew⟩ := publicValues_bind_script ⟨[0x61, 0x51], 0, [], []⟩ ⟨[0x51, 0x61], 0, [], []⟩ (by decide) (by decide) hne
  exact ⟨hne, by decide +kernel, hfew 2 rfl rfl⟩

end Spend

end ScriptCircuit
