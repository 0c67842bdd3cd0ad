import Mathlib
import ScriptCircuit.Proofs.Bridge.Honest
import ScriptCircuit.Proofs.Curve.Signature
import ScriptCircuit.Proofs.Script.Keys

/-!
# The slots of a spend

Signatures fill slots when there are not too many of them and their keys are, in order, the keys that the script consumed;
the slots left over always verify. The first byte of every slot is that of a serial form of its key, and the fold of the
slots from the last signature to the first is the fold of the consumed keys in script order.
-/

namespace ScriptCircuit

open Combination MatrixAux RunAux SatisfiedAux

namespace Bridge

/-- The slot of a signature and the key that the script consumed with it. -/
def Slot.ofPair (pair : SignedKey × ConsumedKey) : Slot where
  signature := pair.1.signature
  key := pair.1.key
  form := pair.2.bytes.headD 0

/-- The slots of signatures and consumed keys, the last one first, in front of slots with a signature of their own. -/
def Slot.padded (signatures : List SignedKey) (keys : List ConsumedKey) (padding : Signature) : List Slot :=
  ((signatures.zip keys).map ofPair).reverse ++
    List.replicate (maxSignatures - signatures.length) ⟨padding, PublicKey.generator, PublicKey.generator.form true⟩

variable {signatures : List SignedKey} {keys : List ConsumedKey} {slots : List Slot}

/-- Two lists of keys are compared one by one. -/
theorem map_key_eq_iff : signatures.map (·.key) = keys.map (·.key) ↔
    signatures.length = keys.length ∧ ∀ pair ∈ signatures.zip keys, pair.1.key = pair.2.key := by
  rw [← List.forall₂_eq_eq_eq, List.forall₂_map_left_iff, List.forall₂_map_right_iff, List.forall₂_iff_zip, Prod.forall]

theorem map_key_eq_iff_forall_getElem? : signatures.map (·.key) = keys.map (·.key) ↔
    signatures.length = keys.length ∧ ∀ (j : Nat) (signed : SignedKey) (consumed : ConsumedKey),
      signatures[j]? = some signed → keys[j]? = some consumed → signed.key = consumed.key := by
  rw [map_key_eq_iff, and_congr_right_iff]
  intro _
  constructor
  · intro h j signed consumed hsigned hconsumed
    exact h (signed, consumed) (List.mem_iff_getElem?.mpr ⟨j, List.getElem?_zip_eq_some.mpr ⟨hsigned, hconsumed⟩⟩)
  · intro h pair hpair
    obtain ⟨j, hj⟩ := List.mem_iff_getElem?.mp hpair
    obtain ⟨hsigned, hconsumed⟩ := List.getElem?_zip_eq_some.mp hj
    exact h j pair.1 pair.2 hsigned hconsumed

/-- Signatures fill slots exactly when there are not too many and they go with the consumed keys one by one. -/
theorem Slot.ofSignatures_eq_ok : ofSignatures signatures keys = .ok slots ↔
    signatures.length ≤ maxSignatures ∧ signatures.map (·.key) = keys.map (·.key) ∧
      ∃ padding, Signature.paddingSignature = .ok padding ∧ slots = padded signatures keys padding := by
  have hbody : ofSignatures signatures keys =
      if signatures.length > maxSignatures then throw (.tooManySignatures maxSignatures signatures.length)
      else if signatures.length ≠ keys.length then throw (.signatureCount signatures.length keys.length)
      else ((signatures.zip keys).zipIdx.forM fun x =>
          if x.1.1.key = x.1.2.key then pure () else throw (.keyMismatch x.2)) >>= fun _ =>
        Signature.paddingSignature >>= fun padding => pure (padded signatures keys padding) := by
    unfold ofSignatures
    split
    · rfl
    · split
      · rfl
      · rfl
  have hmatch : ((signatures.zip keys).zipIdx.forM fun x =>
      if x.1.1.key = x.1.2.key then pure () else throw (.keyMismatch x.2) : Except Error Unit) = .ok () ↔
        ∀ pair ∈ signatures.zip keys, pair.1.key = pair.2.key := by
    have hone : ∀ x : (SignedKey × ConsumedKey) × Nat,
        (if x.1.1.key = x.1.2.key then pure () else throw (.keyMismatch x.2) : Except Error Unit) = .ok () ↔
          x.1.1.key = x.1.2.key := by
      intro x
      by_cases h : x.1.1.key = x.1.2.key
      · rw [if_pos h]
        exact iff_of_true rfl h
      · rw [if_neg h]
        exact iff_of_false nofun h
    rw [forM_eq_ok]
    simp only [hone]
    rw [← List.forall_mem_map (P := fun pair : SignedKey × ConsumedKey => pair.1.key = pair.2.key), List.zipIdx_map_fst]
  rw [hbody, ite_throw_eq_ok, ite_throw_eq_ok, Nat.not_lt, not_not, map_key_eq_iff, and_assoc, and_congr_right_iff]
  intro _
  rw [and_congr_right_iff]
  intro _
  constructor
  · intro h
    obtain ⟨_, hforM, h⟩ := except_bind_eq_ok.mp h
    obtain ⟨padding, hpadding, h⟩ := except_bind_eq_ok.mp h
    exact ⟨hmatch.mp hforM, padding, hpadding, (Except.ok.inj h).symm⟩
  · rintro ⟨hkeys, padding, hpadding, rfl⟩
    exact except_bind_eq_ok.mpr ⟨(), hmatch.mpr hkeys, except_bind_eq_ok.mpr ⟨padding, hpadding, rfl⟩⟩

/-- The slots of a spend verify exactly when its signatures do. -/
theorem Slot.verifies_padded {padding : Signature} (hpadding : Signature.paddingSignature = .ok padding)
    (hlength : signatures.length = keys.length) : (∀ slot ∈ padded signatures keys padding, slot.Verifies) ↔
      ∀ signed ∈ signatures, signed.signature.verifies signed.key Signature.messageHash = true := by
  obtain ⟨g, hg, hverifies⟩ := Signature.paddingSignature_verifies
  obtain rfl : g = padding := Except.ok.inj (hg.symm.trans hpadding)
  have hunused : ∀ slot ∈ List.replicate (maxSignatures - signatures.length)
      (⟨g, PublicKey.generator, PublicKey.generator.form true⟩ : Slot), slot.Verifies := by
    intro slot hslot
    obtain rfl := List.eq_of_mem_replicate hslot
    exact hverifies
  have hused : (∀ slot ∈ ((signatures.zip keys).map ofPair).reverse, slot.Verifies) ↔
      ∀ signed ∈ (signatures.zip keys).map Prod.fst,
        signed.signature.verifies signed.key Signature.messageHash = true := by
    simp only [List.mem_reverse, List.forall_mem_map]
    rfl
  rw [padded, List.forall_mem_append, and_iff_left hunused, hused, List.map_fst_zip (Nat.le_of_eq hlength)]

/-- The slots in use fold the combinations of their keys in the order of the signatures. -/
theorem foldl_accumulators (hlength : signatures.length = keys.length) (padding : Signature) (r : Felt) :
    (Columns.accumulators r (Slot.padded signatures keys padding) signatures.length).getD 0 0 =
      (signatures.zip keys).foldl (fun acc pair => acc * r + (Slot.ofPair pair).combination r) 0 := by
  have hused : ((signatures.zip keys).map Slot.ofPair).reverse.length = signatures.length := by
    rw [List.length_reverse, List.length_map, List.length_zip, hlength, Nat.min_self]
  have hstep : (fun acc key => key + r * acc) = fun acc key : Felt => acc * r + key := by
    funext acc key
    ring
  rw [Columns.accumulators, getD_foldKeys, List.drop_zero, Slot.padded, List.take_left' hused, List.map_reverse,
    List.foldr_reverse, List.map_map, hstep, List.foldl_map]
  simp only [Function.comp_apply]

section

variable (hparsed : ∀ k ∈ keys, PublicKey.parse k.bytes = .ok k.key) (hkeys : signatures.map (·.key) = keys.map (·.key))
include hparsed hkeys

/-- The key of a slot in use has the bytes of the consumed key for the serial form that the slot names. -/
theorem Slot.exists_form_ofPair {pair : SignedKey × ConsumedKey} (hpair : pair ∈ signatures.zip keys) :
    ∃ compressed, (ofPair pair).form = (ofPair pair).key.form compressed ∧
      pair.2.bytes = (ofPair pair).key.serialize compressed := by
  have hkey : pair.1.key = pair.2.key := (map_key_eq_iff.mp hkeys).2 pair hpair
  have hparse := hparsed pair.2 (List.of_mem_zip hpair).2
  rw [← hkey] at hparse
  exact PublicKey.exists_form_of_parse hparse

/-- Every slot of a spend has the first byte of a serial form of its key. -/
theorem Slot.formed_padded (padding : Signature) : ∀ slot ∈ padded signatures keys padding, slot.Formed := by
  intro slot hslot
  rcases List.mem_append.mp hslot with hslot | hslot
  · obtain ⟨pair, hpair, rfl⟩ := List.mem_map.mp (List.mem_reverse.mp hslot)
    obtain ⟨compressed, hform, -⟩ := exists_form_ofPair hparsed hkeys hpair
    exact ⟨compressed, hform⟩
  · obtain rfl := List.eq_of_mem_replicate hslot
    exact ⟨true, Eq.refl (PublicKey.generator.form true)⟩

/-- The combination of a slot in use is that of the bytes of the consumed key. -/
theorem Slot.combination_ofPair {pair : SignedKey × ConsumedKey} (hpair : pair ∈ signatures.zip keys) (r : Felt) :
    (ofPair pair).combination r = horner r 0 pair.2.bytes := by
  obtain ⟨compressed, hform, hbytes⟩ := exists_form_ofPair hparsed hkeys hpair
  rw [combination, keyCombination, hform, PublicKey.form_ne_full, hbytes]

/-- The slots in use fold the consumed keys in script order. -/
theorem accumulators_padded (padding : Signature) (r : Felt) :
    (Columns.accumulators r (Slot.padded signatures keys padding) signatures.length).getD 0 0 =
      keyFold r (keys.map (·.bytes)) := by
  have hlength := (map_key_eq_iff.mp hkeys).1
  have hcombinations : (signatures.zip keys).map (fun pair => (Slot.ofPair pair).combination r) =
      (keys.map (·.bytes)).map (horner r 0) := by
    have hsecond : (signatures.zip keys).map Prod.snd = keys := List.map_snd_zip (Nat.le_of_eq hlength.symm)
    conv_rhs => rw [← hsecond]
    rw [List.map_map, List.map_map, List.map_inj_left]
    exact fun pair hpair => Slot.combination_ofPair hparsed hkeys hpair r
  have hmap : (signatures.zip keys).foldl (fun acc pair => acc * r + (Slot.ofPair pair).combination r) 0 =
      ((signatures.zip keys).map fun pair => (Slot.ofPair pair).combination r).foldl (fun acc key => acc * r + key) 0 :=
    List.foldl_map.symm
  rw [foldl_accumulators hlength, hmap, hcombinations, List.foldl_map, keyFold]

end

end Bridge

end ScriptCircuit
