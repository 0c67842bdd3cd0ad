import Mathlib
import ScriptCircuit.Proofs.Bridge.Acceptance

/-!
# From the limbs of a key to its serial form

A coordinate has its bytes the most significant one first, its limbs the least significant one first, and the decompositions
of its limbs give the bytes of every limb the least significant one first. One behind the other these are the bytes of the
coordinate the other way round. So the combination that the gates put together from them, with the powers of the challenge in
a row, is that of the serial key, with one coordinate or with both.
-/

namespace ScriptCircuit

/-! ## The bytes of a word -/

/-- Cells hold the bytes of a word, the least significant one first. -/
def AssignedCell.HoldBytes (cells : List AssignedCell) (w : Word) : Prop :=
  cells.map (·.value) = w.bytes.reverse.map .ofByte

namespace ByteRange

/-- The byte cells of some limbs hold the digits of every limb. -/
theorem map_value_limbBytes (b : ByteRange) (start offset : Nat) (limbs : List AssignedCell) :
    (b.limbBytes start offset limbs).map (·.value) =
      limbs.flatMap fun limb => (List.range 4).map fun j => .ofNat (limb.value.toNat / 256 ^ j % 256) := by
  induction limbs generalizing offset with
  | nil => rfl
  | cons limb limbs ih => rw [limbBytes, List.map_append, map_value_bytesFrom, ih, List.flatMap_cons]

/-- The byte cells of the limbs of a word hold its bytes. -/
theorem holdBytes_limbBytes (b : ByteRange) (start offset : Nat) {limbs : List AssignedCell} {w : Word}
    (h : AssignedCell.HoldLimbs limbs w) : AssignedCell.HoldBytes (b.limbBytes start offset limbs) w := by
  have hdigits : ∀ numbers : List Nat,
      (numbers.flatMap fun limb => (List.range 4).map fun j => Felt.ofNat (limb / 256 ^ j % 256)) =
        (numbers.flatMap fun limb => (List.range 4).map fun j => limb / 256 ^ j % 256).map Felt.ofNat := by
    intro numbers
    simp only [List.map_flatMap, List.map_map]
    rfl
  have hbyte : (Felt.ofNat ∘ UInt8.toNat) = Felt.ofByte := funext fun byte => (Felt.ofByte_eq byte).symm
  calc (b.limbBytes start offset limbs).map (·.value)
      = (limbs.map (·.value.toNat)).flatMap fun limb => (List.range 4).map fun j => .ofNat (limb / 256 ^ j % 256) := by
        rw [map_value_limbBytes, List.flatMap_map]
    _ = (w.bytes.reverse.map UInt8.toNat).map .ofNat := by rw [h.map_toNat, hdigits, Word.flatMap_limbs]
    _ = w.bytes.reverse.map .ofByte := by rw [List.map_map, hbyte]

end ByteRange

/-! ## The serial form -/

namespace Bridge

/-- Pairs of cells hold the limbs of a key, the first coordinate in front. -/
structure HoldLimbs (limbs : List (AssignedCell × AssignedCell)) (key : PublicKey) : Prop where
  x : AssignedCell.HoldLimbs (limbs.map Prod.fst) key.x
  y : AssignedCell.HoldLimbs (limbs.map Prod.snd) key.y

/-- Byte cells hold the bytes of a key. -/
structure KeyBytes.Hold (bytes : KeyBytes) (key : PublicKey) : Prop where
  x : AssignedCell.HoldBytes bytes.x key.x
  y : AssignedCell.HoldBytes bytes.y key.y

/-- A row has the powers of a challenge, copies of byte cells, and a first byte. -/
structure View.Copies (v : View) (r : Felt) (bytes : KeyBytes) (form : UInt8) : Prop where
  powers : v.powers.toList = (Combination.powers r 64).drop 1
  x : v.x.toList = bytes.x.map (·.value)
  y : v.y.toList = bytes.y.map (·.value)
  form : v.form = .ofByte form

/-- The powers of a copied row are those of the challenge. -/
theorem View.Copies.power {v : View} {r : Felt} {bytes : KeyBytes} {form : UInt8} (h : v.Copies r bytes form) {k : Nat}
    (hk : k < 64) : v.powers[k] = r ^ (k + 1) := by
  have hpower : v.powers.toList[k]? = some (r ^ (k + 1)) := by
    rw [h.powers, List.getElem?_drop, Nat.add_comm, Combination.getElem?_powers r (by omega)]
  rw [Vector.getElem?_toList, Vector.getElem?_eq_getElem hk] at hpower
  exact Option.some.inj hpower

namespace Columns

variable {c : Columns} {sys : System}

/-- The cells of the limbs of a verified key. -/
theorem holdLimbs_limbPairs (c : Columns) (start i : Nat) (key : PublicKey) : HoldLimbs (c.limbPairs start i key) key where
  x := by
    rw [map_fst_limbPairs]
    exact Verification.holdLimbs_limbsAt ..
  y := by
    rw [map_snd_limbPairs]
    exact Verification.holdLimbs_limbsAt ..

/-- Over the bytes of a key, the gates put its serial form together. -/
theorem eval_serialCombination_of_hold {bytes : KeyBytes} {key : PublicKey} (hbytes : bytes.Hold key) {r : Felt}
    {compressed : Bool} {read : Column → Int → Felt} (hrow : (c.cur read).Copies r bytes (key.form compressed)) :
    c.serialCombination.eval read = Bridge.keyCombination key compressed r := by
  have hform : (c.cur read).form = 2 ∨ (c.cur read).form = 3 ∨ (c.cur read).form = 4 := by
    rw [hrow.form]
    exact ofByte_form key compressed
  rw [eval_serialCombination (fun _ => hrow.power) hform]
  exact View.combination_of_key rfl hrow.form (hrow.x.trans hbytes.x) (hrow.y.trans hbytes.y)

section

variable (hc : c.Proper sys) {limbs : List (AssignedCell × AssignedCell)} {key : PublicKey} (hlimbs : HoldLimbs limbs key)
include hc hlimbs

/-- Decomposing the limbs of a key writes the bytes of both coordinates. -/
theorem Proper.does_assignKey (offset : Nat) :
    (c.assignBytes sys offset limbs).Does sys (c.keyCells offset limbs) (c.keyLinks offset limbs) fun start =>
      c.keyBytes start offset limbs :=
  hc.does_assignBytes offset fun _ hpair =>
    ⟨hlimbs.x.value_lt (List.mem_map_of_mem hpair), hlimbs.y.value_lt (List.mem_map_of_mem hpair)⟩

/-- Where a region has the rows, the limbs of a key are decomposed. -/
theorem Proper.assignBytes_ends {offset : Nat} {s : Filling} (hregion : s.region.Inside s.matrix) (hmatrix : c.InMatrix s.matrix)
    (hrows : offset + slotRows ≤ s.region.height)
    (hlinked : ∀ pair ∈ limbs, sys.equalityEnabled pair.1.cell.column = true ∧ sys.equalityEnabled pair.2.cell.column = true) :
    ∃ bytes s', (c.assignBytes sys offset limbs).Ends s bytes s' := by
  have hlength : limbs.length = 8 := by
    rw [← List.length_map Prod.fst]
    exact hlimbs.x.length_eq
  exact ⟨_, _, (hc.does_assignKey hlimbs offset s _ _).mpr
    ⟨hmatrix.fits_limbs hregion hlength hrows, hc.links_limbs hlinked, rfl, rfl⟩⟩

/-- What the decompositions give are the bytes of the key. -/
theorem Proper.hold_of_ends {offset : Nat} {s s' : Filling} {bytes : KeyBytes}
    (h : (c.assignBytes sys offset limbs).Ends s bytes s') : bytes.Hold key := by
  obtain ⟨-, -, rfl, -⟩ := (hc.does_assignKey hlimbs offset s bytes s').mp h
  exact ⟨c.range.holdBytes_limbBytes _ _ hlimbs.x, c.range.holdBytes_limbBytes _ _ hlimbs.y⟩

end

/-- Limbs, bytes and the serial form agree. The word of 32 bytes has eight limbs of 32 bits, each the number of four of the
bytes, that make up its number. Where a region has the rows, cells that hold the limbs of a key are decomposed, and what
the decompositions give are the bytes of both coordinates the other way round. The second polynomial of the gate on serial
keys is the difference of the cell of the combination and what is put together from the byte cells; on a row with the powers
of a challenge, copies of these bytes and the first byte of a serial form this is the combination of that serial form. -/
theorem Proper.serial_agrees (hc : c.Proper sys) :
    (∀ v : Vector UInt8 32,
      (Word.ofBytes v.toList).bytes = v.toList ∧
        (∀ limb ∈ (Word.ofBytes v.toList).limbs, limb < 2 ^ 32) ∧
        (∀ i, (Word.ofBytes v.toList).limbs.get i = Word.natOfBytes ((v.toList.drop (28 - 4 * i)).take 4)) ∧
        ∑ i, (Word.ofBytes v.toList).limbs.get i * 2 ^ (32 * (i : Nat)) = Word.natOfBytes v.toList) ∧
    c.combinationGate.polys[1]? = some (c.isSlot.cur * (c.keyCombination.cur - c.serialCombination)) ∧
    ∀ (key : PublicKey) (limbs : List (AssignedCell × AssignedCell)), HoldLimbs limbs key → ∀ (offset : Nat) (s : Filling),
      (s.region.Inside s.matrix → c.InMatrix s.matrix → offset + slotRows ≤ s.region.height →
        (∀ pair ∈ limbs,
          sys.equalityEnabled pair.1.cell.column = true ∧ sys.equalityEnabled pair.2.cell.column = true) →
        ∃ bytes s', (c.assignBytes sys offset limbs).Ends s bytes s') ∧
      ∀ bytes s', (c.assignBytes sys offset limbs).Ends s bytes s' →
        bytes.Hold key ∧ ∀ (r : Felt) (compressed : Bool) (read : Column → Int → Felt),
          (c.cur read).Copies r bytes ((key.serialize compressed).headD 0) →
            c.serialCombination.eval read = Bridge.keyCombination key compressed r := by
  refine ⟨fun v => ?_, rfl, fun key limbs hlimbs offset s => ⟨?_, fun bytes s' hends => ?_⟩⟩
  · have hlength : v.toList.length = 32 := v.length_toList
    have hbytes : (Word.ofBytes v.toList).bytes = v.toList := Word.bytes_natOfBytes hlength
    refine ⟨hbytes, fun limb => Word.lt_of_mem_limbs _, fun i => ?_, ?_⟩
    · rw [Word.get_limbs, hbytes]
    · rw [Word.sum_limbs, Word.toNat_ofBytes hlength]
  · exact hc.assignBytes_ends hlimbs
  · have hbytes := hc.hold_of_ends hlimbs hends
    exact ⟨hbytes, fun r compressed read hrow => eval_serialCombination_of_hold hbytes hrow⟩

/-- The generator's limbs, as a verification in the first row writes them, are decomposed in 80 rows, and the row of a slot over
its bytes has the combination of its short or of its full serial form under the challenge 7. -/
theorem Proper.serial_agrees_generator :
    let c := system.1
    let limbs := c.limbPairs 0 0 PublicKey.generator
    let bytes := c.keyBytes 0 0 limbs
    let slot := fun compressed => (⟨⟨1, 1⟩, PublicKey.generator, PublicKey.generator.form compressed⟩ : Slot)
    let read := fun compressed column (_ : Int) =>
      (((c.slotRowCells 0 7 1 (slot compressed) bytes).map fun x => (x.1, x.2.2)).lookup column).getD 0
    HoldLimbs limbs PublicKey.generator ∧ (∃ s s', (c.assignBytes system.2 0 limbs).Ends s bytes s') ∧
      bytes.Hold PublicKey.generator ∧
      ∀ compressed, c.serialCombination.eval (read compressed) = Bridge.keyCombination PublicKey.generator compressed 7 := by
  intro c limbs bytes slot read
  have hlimbs : HoldLimbs limbs PublicKey.generator := c.holdLimbs_limbPairs 0 0 PublicKey.generator
  let s : Filling := ⟨⟨"public key range check", 0, 80, []⟩, .zero system.2 128⟩
  obtain ⟨-, -, hkeys⟩ := serial_agrees (c := c) system_proper
  obtain ⟨hends, hgives⟩ := hkeys PublicKey.generator limbs hlimbs 0 s
  have hinside : s.region.Inside s.matrix := ⟨by decide, by decide⟩
  obtain ⟨_, s', hdone⟩ := hends hinside (system_proper.inMatrix 128) (by decide)
    (system_proper.linked_limbPairs 0 0 PublicKey.generator)
  obtain ⟨-, -, rfl, -⟩ := (system_proper.does_assignKey hlimbs 0 s _ s').mp hdone
  obtain ⟨hhold, hrows⟩ := hgives bytes s' hdone
  refine ⟨hlimbs, ⟨s, s', hdone⟩, hhold, fun compressed => hrows 7 compressed (read compressed) ?_⟩
  cases compressed
  all_goals exact ⟨by decide +kernel, by decide +kernel, by decide +kernel, by decide +kernel⟩

end Columns

end Bridge

end ScriptCircuit
