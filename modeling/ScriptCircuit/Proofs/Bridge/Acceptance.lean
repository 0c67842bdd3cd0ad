import Mathlib
import ScriptCircuit.Bridge.Circuit
import ScriptCircuit.Proofs.Circuit.Slots

/-!
# Which bridges are accepted

The bridge on its own, without the execution region, over any keys that go with the signatures, whether a script has consumed
them or not. Its check finds nothing exactly when the first byte of every key is that of a serial form of the point; the
shared cells hold the number of signatures and the fold of their keys in any case.
-/

namespace ScriptCircuit.Bridge

open MatrixAux

/-! ## The layout -/

/-- The first row of the decompositions. -/
def rangeRow : Nat := maxSignatures

/-- The first row of the bridge rows. -/
def bridgeRow : Nat := rangeRow + maxSignatures * Columns.slotRows

/-- The height of the matrix. -/
def height : Nat := 1024

/-- The layouter once the bridge is planned. -/
def planned : Layouter :=
  behindPlan ∅

/-- The height of the matrix for the bridge alone. -/
theorem rows_planned : planned.rows = height := by decide +kernel

/-- The parity table is the tallest table. -/
theorem tableRows_planned : planned.tableRows = ParityTable.size := by decide

/-- The three regions follow each other from row zero. -/
theorem regions_planned : (⟨0, 1, 2⟩ : Regions).Planned planned 0 rangeRow bridgeRow := by
  refine ⟨?_, ?_, ?_⟩
  all_goals decide +kernel

/-- The system of the bridge has proper columns. -/
theorem system_proper : system.1.Proper system.2 where
  advice_kind := by decide +kernel
  advice_nodup := by decide +kernel
  fixed_kind := by decide +kernel
  fixed_nodup := by decide +kernel
  linked := by decide +kernel

namespace Columns

/-- The cells of the bridge on its own over slots, the first `count` of which hold signatures of the script. -/
def allCells (c : Columns) (r : Felt) (slots : List Slot) (count : Nat) : List (Column × Nat × Felt) :=
  c.tableCells ++ c.bridgeCells 0 rangeRow bridgeRow r slots count

/-- The witness of the bridge on its own. -/
def witnessOf (c : Columns) (sys : System) (r : Felt) (slots : List Slot) (count : Nat) : Witness where
  matrix := (Matrix.zero sys height).writeAll (c.allCells r slots count)
  copies := c.bridgeCopies 0 rangeRow bridgeRow slots

-- Neither the height of the matrix nor its cells are computed here.
attribute [local irreducible] Layouter.rows Matrix.writeAll

/-- The synthesis of the bridge ends well exactly when the signatures go with the keys and every slot verifies. -/
theorem Proper.ends_synthesis {c : Columns} {sys : System} (hc : c.Proper sys) {r : Felt} {signatures : List SignedKey}
    {keys : List ConsumedKey} {out : Witness × Cells} {l : Layouter} :
    (synthesis sys c r signatures keys).Ends ∅ out l ↔
      ∃ slots, (Slot.ofSignatures signatures keys = .ok slots ∧ ∀ slot ∈ slots, slot.Verifies) ∧
        out = (c.witnessOf sys r slots signatures.length,
          c.cells bridgeRow r ((accumulators r slots signatures.length).headD 0) signatures.length) ∧
        l = { planned with witness? := none } := by
  have hbody : synthesis sys c r signatures keys =
      plan >>= fun regions => Synthesis.allocate sys >>= fun _ => c.load >>= fun _ =>
      c.assign sys regions r signatures keys >>= fun cells => Synthesis.take >>= fun w => pure (w, cells) := rfl
  have hplan : ∀ regions l', plan.Ends ∅ regions l' ↔ regions = ⟨0, 1, 2⟩ ∧ l' = planned := fun _ _ =>
    ends_plan.trans (and_iff_right rfl)
  have hallocated : planned.withWitness ⟨.zero sys planned.rows, []⟩ = planned.withWitness ⟨Matrix.zero sys height, []⟩ := by
    rw [rows_planned]
  have hload : ∀ {l' u}, c.load.Ends (planned.withWitness ⟨Matrix.zero sys height, []⟩) u l' ↔ _ :=
    ends_load (fun column hcolumn => hc.hasColumn_zero _ (.inr (List.mem_append_right _ hcolumn)))
      (Nat.le_of_eq tableRows_planned.symm) (by rw [Matrix.rows_zero]; decide)
  have hloaded : ((Matrix.zero sys height).writeAll c.tableCells).rows = height := by
    rw [Matrix.rows_writeAll, Matrix.rows_zero]
  have hassign : ∀ cells l', (c.assign sys ⟨0, 1, 2⟩ r signatures keys).Ends (planned.withWitness
      ⟨(Matrix.zero sys height).writeAll c.tableCells, []⟩) cells l' ↔ _ := fun _ _ =>
    hc.ends_assign regions_planned ((hc.inMatrix _).writeAll _) (by rw [hloaded]; decide) (by rw [hloaded]; decide)
      (by rw [hloaded]; decide) (by rw [hloaded]; decide)
  rw [hbody, Synthesis.ends_bind_of hplan, Synthesis.ends_allocate_bind rfl, hallocated,
    Synthesis.ends_bind_of_unit fun _ _ => hload,
    Synthesis.ends_bind_of_exists fun cells l' => (hassign cells l').trans (exists_congr fun _ => and_assoc.symm)]
  refine exists_congr fun slots => and_congr_right fun _ => ?_
  rw [Synthesis.ends_bind_of fun _ _ => Synthesis.ends_take, Synthesis.ends_pure, List.nil_append, witnessOf, allCells,
    Matrix.writeAll_append]

end Columns

/-- The first byte of a slot is that of a serial form when it is the full one, or the short one for the parity of the key. -/
theorem Slot.formed_iff {slot : Slot} : slot.Formed ↔ slot.form = 4 ∨ slot.form = 2 ∧ slot.key.y.toNat % 2 = 0 ∨
    slot.form = 3 ∧ slot.key.y.toNat % 2 = 1 := by
  constructor
  · rintro ⟨compressed, hform⟩
    rw [hform]
    cases compressed with
    | false => exact .inl rfl
    | true =>
      unfold PublicKey.form PublicKey.isOdd
      by_cases hodd : slot.key.y.toNat % 2 = 1
      · simp [hodd, PublicKey.oddForm]
      · have heven : slot.key.y.toNat % 2 = 0 := by omega
        simp [heven, PublicKey.evenForm]
  · rintro (hfour | ⟨htwo, heven⟩ | ⟨hthree, hodd⟩)
    · exact ⟨false, hfour⟩
    · refine ⟨true, htwo.trans ?_⟩
      simp [PublicKey.form, PublicKey.isOdd, heven, PublicKey.evenForm]
    · refine ⟨true, hthree.trans ?_⟩
      simp [PublicKey.form, PublicKey.isOdd, hodd, PublicKey.oddForm]

/-! ## The claim -/

-- Neither the matrix nor its cells are computed here.
attribute [local irreducible] Matrix.writeAll

/-- The claim about the bridge on its own, which has no public values. -/
def claimOf (r : Felt) (slots : List Slot) (count : Nat) : Claim where
  system := system.2
  witness := system.1.witnessOf system.2 r slots count
  instances := #[]

section Claim

variable {r : Felt} {slots : List Slot} {count : Nat}

/-- The built witness can be checked without public values. -/
theorem make_claimOf : Claim.make system.2 (system.1.witnessOf system.2 r slots count) [] = .ok (claimOf r slots count) :=
  Claim.make_eq_ok.mpr ⟨rfl, nofun, rfl⟩

theorem rows_claimOf : (claimOf r slots count).rows = height :=
  Matrix.rows_writeAll (Matrix.zero system.2 height) _

/-- The claim is filled as built. -/
theorem filled_claimOf (hslots : slots.length = maxSignatures) :
    system.1.Filled (claimOf r slots count) 0 rangeRow bridgeRow r slots count :=
  system_proper.filled (fun _ _ _ _ => List.mem_append) hslots (by decide) (by decide) (by decide) (by decide) rfl

theorem hasTables_claimOf : (claimOf r slots count).HasTables := fun l hl column hcolumn =>
  (Matrix.hasColumn_writeAll ..).mpr (system_proper.hasTables height l hl column hcolumn)

/-- The check of the bridge finds something or nothing, but never fails itself. -/
theorem failures_claimOf (hslots : slots.length = maxSignatures) : ∃ fs, (claimOf r slots count).failures = .ok fs :=
  ⟨_, Claim.failures_of_agrees _ hasTables_claimOf (filled_claimOf hslots).agrees⟩

/-- A check of the bridge that finds nothing has seen its gates and lookups hold. -/
theorem accepted_of_failures (hslots : slots.length = maxSignatures) (h : (claimOf r slots count).failures = .ok []) :
    system.1.Accepted (claimOf r slots count) 0 rangeRow bridgeRow := by
  obtain ⟨-, hgates, hlookups, -⟩ := (claimOf r slots count).failures_eq_nil.mp h
  exact ⟨(filled_claimOf hslots).placed, hgates, hlookups⟩

/-- In an accepted bridge the first byte of every slot is that of a serial form of its key. -/
theorem formed_of_accepted (hslots : slots.length = maxSignatures)
    (h : system.1.Accepted (claimOf r slots count) 0 rangeRow bridgeRow) : ∀ slot ∈ slots, slot.Formed := by
  intro slot hslot
  obtain ⟨i, hget⟩ := List.mem_iff_getElem?.mp hslot
  have hfilled : system.1.Filled (claimOf r slots count) 0 rangeRow bridgeRow r slots count := filled_claimOf hslots
  have hi := hfilled.lt_of_slot hget
  have hshows := hfilled.shows hget
  have hform : (claimOf r slots count).value system.1.form (bridgeRow + i) = .ofByte slot.form := hshows.form
  have hlast := hshows.y 0 (by decide)
  rw [Columns.rowView, Columns.view, Vector.getElem_map] at hlast
  obtain ⟨byte, hbyte, heven, hodd⟩ := h.parity hi
  obtain rfl : slot.key.y.byteAt 0 = byte := Felt.ofByte_inj.mp (hlast.symm.trans hbyte)
  rw [slot.key.y.byteAt_zero, hform] at heven hodd
  have hcases := (h.slotStep hi).form
  rw [hshows.form] at hcases
  rw [Slot.formed_iff]
  rcases hcases with htwo | hthree | hfour
  · exact .inr (.inl ⟨Felt.ofByte_inj.mp htwo, heven htwo⟩)
  · exact .inr (.inr ⟨Felt.ofByte_inj.mp hthree, hodd hthree⟩)
  · exact .inl (Felt.ofByte_inj.mp hfour)

/-- The check of the bridge finds nothing exactly when the first byte of every slot is that of a serial form of its key. -/
theorem failures_claimOf_eq_nil (hslots : slots.length = maxSignatures) (hcount : count ≤ maxSignatures) :
    (claimOf r slots count).failures = .ok [] ↔ ∀ slot ∈ slots, slot.Formed := by
  refine ⟨fun h => formed_of_accepted hslots (accepted_of_failures hslots h), fun hformed => ?_⟩
  have hfilled : system.1.Filled (claimOf r slots count) 0 rangeRow bridgeRow r slots count := filled_claimOf hslots
  have haccepted := hfilled.accepted hformed hcount (by rw [rows_claimOf]; decide)
  exact (claimOf r slots count).failures_eq_nil.mpr
    ⟨hasTables_claimOf, haccepted.gates, haccepted.lookups, hfilled.agrees⟩

end Claim

/-! ## All bridges -/

/-- The first byte of a list, where a missing one does not count. -/
theorem headD_eq_iff {bytes : List UInt8} {b : UInt8} (hb : b ≠ 0) : bytes.headD 0 = b ↔ bytes.head? = some b := by
  cases bytes with
  | nil => exact iff_of_false hb.symm (by nofun)
  | cons first rest => exact Option.some_inj.symm

/-- The slots of signatures are formed when those in use are: the others hold the short form of the generator. -/
theorem Slot.formed_padded_iff {signatures : List SignedKey} {keys : List ConsumedKey} {padding : Signature} :
    (∀ slot ∈ padded signatures keys padding, slot.Formed) ↔
      ∀ (j : Nat) (signed : SignedKey) (consumed : ConsumedKey), signatures[j]? = some signed → keys[j]? = some consumed →
        consumed.bytes.head? = some 4 ∨ consumed.bytes.head? = some 2 ∧ signed.key.y.toNat % 2 = 0 ∨
          consumed.bytes.head? = some 3 ∧ signed.key.y.toNat % 2 = 1 := by
  have hunused : ∀ slot ∈ List.replicate (maxSignatures - signatures.length)
      (⟨padding, PublicKey.generator, PublicKey.generator.form true⟩ : Slot), slot.Formed := by
    intro slot hslot
    obtain rfl := List.eq_of_mem_replicate hslot
    exact ⟨true, Eq.refl (PublicKey.generator.form true)⟩
  have hpair : ∀ signed consumed, (ofPair (signed, consumed)).Formed ↔ consumed.bytes.head? = some 4 ∨
      consumed.bytes.head? = some 2 ∧ signed.key.y.toNat % 2 = 0 ∨
      consumed.bytes.head? = some 3 ∧ signed.key.y.toNat % 2 = 1 := by
    intro signed consumed
    rw [formed_iff, ← headD_eq_iff (by decide), ← headD_eq_iff (by decide), ← headD_eq_iff (by decide)]
    rfl
  rw [padded, List.forall_mem_append, and_iff_left hunused]
  simp only [List.mem_reverse, List.forall_mem_map, ← hpair]
  constructor
  · intro h j signed consumed hsigned hconsumed
    exact h _ (List.mem_iff_getElem?.mpr ⟨j, List.getElem?_zip_eq_some.mpr ⟨hsigned, hconsumed⟩⟩)
  · intro h pair hmem
    obtain ⟨j, hj⟩ := List.mem_iff_getElem?.mp hmem
    obtain ⟨hsigned, hconsumed⟩ := List.getElem?_zip_eq_some.mp hj
    exact h j pair.1 pair.2 hsigned hconsumed

/-- The check of the bridge on its own, whatever keys go with the signatures: it finds nothing exactly when the first byte of
every key is 4, or 2 with an even, or 3 with an odd second coordinate of the point. The shared cells hold, in the matrix too,
the number of signatures and the fold of their keys in the form that the first bytes name. -/
theorem accepted_exactly {r : Felt} {signatures : List SignedKey} {keys : List ConsumedKey} {w : Witness} {cells : Cells}
    {l : Layouter} (h : (synthesis system.2 system.1 r signatures keys).run ∅ = .ok ((w, cells), l)) :
    ∃ claim fs, Claim.make system.2 w [] = .ok claim ∧ claim.failures = .ok fs ∧
      (fs = [] ↔ ∀ (j : Nat) (signed : SignedKey) (consumed : ConsumedKey), signatures[j]? = some signed →
        keys[j]? = some consumed → consumed.bytes.head? = some 4 ∨
          consumed.bytes.head? = some 2 ∧ signed.key.y.toNat % 2 = 0 ∨
          consumed.bytes.head? = some 3 ∧ signed.key.y.toNat % 2 = 1) ∧
      cells.checks.value = (signatures.length : Felt) ∧
      cells.keyAcc.value = (signatures.zip keys).foldl (fun acc (signed, consumed) =>
        acc * r + keyCombination signed.key (consumed.bytes.head? ≠ some 4) r) 0 ∧
      ∀ cell ∈ cells.toList, claim.value cell.cell.column cell.cell.row = cell.value := by
  obtain ⟨slots, ⟨hslots, -⟩, hout, -⟩ := system_proper.ends_synthesis.mp h
  obtain ⟨rfl, rfl⟩ := Prod.mk.inj hout
  obtain ⟨hlength, -⟩ := Slot.length_ofSignatures hslots
  obtain ⟨hcount, hkeys, padding, -, rfl⟩ := Slot.ofSignatures_eq_ok.mp hslots
  have hhead : ∀ accs : List Felt, accs.headD 0 = accs.getD 0 0 := by rintro (_ | _) <;> rfl
  obtain ⟨fs, hfs⟩ : ∃ fs, (claimOf r (Slot.padded signatures keys padding) signatures.length).failures = .ok fs :=
    failures_claimOf hlength
  have hnone : fs = [] ↔ (claimOf r (Slot.padded signatures keys padding) signatures.length).failures = .ok [] := by
    rw [hfs, Except.ok.injEq]
  have hfilled : system.1.Filled (claimOf r (Slot.padded signatures keys padding) signatures.length) 0 rangeRow bridgeRow r
      (Slot.padded signatures keys padding) signatures.length := filled_claimOf hlength
  obtain ⟨hchallenge, hchecks, hkeyAcc⟩ := hfilled.shared_hold
  refine ⟨_, fs, make_claimOf, hfs, ?_, Felt.ofNat_eq _, ?_, ?_⟩
  · rw [hnone, failures_claimOf_eq_nil hlength hcount, Slot.formed_padded_iff]
  · have hcombination : ∀ pair : SignedKey × ConsumedKey, (Slot.ofPair pair).combination r =
        keyCombination pair.1.key (pair.2.bytes.head? ≠ some 4) r := by
      intro pair
      have hfull : (Slot.ofPair pair).form ≠ PublicKey.fullForm ↔ pair.2.bytes.head? ≠ some 4 :=
        not_congr (headD_eq_iff (by decide))
      rw [Slot.combination, decide_eq_decide.mpr hfull]
      rfl
    refine (hhead _).trans ((foldl_accumulators (map_key_eq_iff.mp hkeys).1 padding r).trans ?_)
    simp only [hcombination]
  · simp only [Cells.toList, Columns.cells, List.forall_mem_cons, hhead]
    exact ⟨hchallenge.2, hkeyAcc.2, hchecks.2, List.forall_mem_nil _⟩

/-- A signature under the generator is accepted with the first byte of its short form, whatever follows that byte. -/
theorem accepted_exactly_generator : ∃ signature w cells l,
    (synthesis system.2 system.1 7 [⟨signature, PublicKey.generator⟩] [⟨[2], PublicKey.generator⟩]).run ∅ =
        .ok ((w, cells), l) ∧
      ∃ claim, Claim.make system.2 w [] = .ok claim ∧ claim.failures = .ok [] ∧ cells.checks.value = 1 := by
  obtain ⟨signature, hpadding, hverifies⟩ := Signature.paddingSignature_verifies
  have hslots : Slot.ofSignatures [⟨signature, PublicKey.generator⟩] [⟨[2], PublicKey.generator⟩] =
      .ok (Slot.padded [⟨signature, PublicKey.generator⟩] [⟨[2], PublicKey.generator⟩] signature) :=
    Slot.ofSignatures_eq_ok.mpr ⟨(by decide : 1 ≤ maxSignatures), rfl, signature, hpadding, rfl⟩
  have hall : ∀ slot ∈ Slot.padded [⟨signature, PublicKey.generator⟩] [⟨[2], PublicKey.generator⟩] signature,
      slot.Verifies := by
    refine (Slot.verifies_padded hpadding rfl).mpr fun signed hsigned => ?_
    obtain rfl := List.mem_singleton.mp hsigned
    exact hverifies
  have hrun := (system_proper.ends_synthesis (r := 7)).mpr ⟨_, ⟨hslots, hall⟩, rfl, rfl⟩
  obtain ⟨claim, fs, hmake, hfs, hnone, hchecks, -⟩ := accepted_exactly hrun
  have heven : fs = [] := hnone.mpr fun j signed consumed hsigned hconsumed => by
    obtain ⟨rfl, rfl⟩ : signed = ⟨signature, PublicKey.generator⟩ ∧ consumed = ⟨[2], PublicKey.generator⟩ := by
      cases j with
      | zero => exact ⟨(Option.some.inj hsigned).symm, (Option.some.inj hconsumed).symm⟩
      | succ j => cases hsigned
    exact .inr (.inl ⟨rfl, (by decide : PublicKey.generator.y.toNat % 2 = 0)⟩)
  rw [heven] at hfs
  exact ⟨signature, _, _, _, hrun, claim, hmake, hfs, hchecks.trans Nat.cast_one⟩

end ScriptCircuit.Bridge
