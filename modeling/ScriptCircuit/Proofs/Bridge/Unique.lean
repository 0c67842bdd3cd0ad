import Mathlib
import ScriptCircuit.Proofs.Bridge.Placement
import ScriptCircuit.Proofs.Field.Combination
import ScriptCircuit.Proofs.Plonk.Unique

/-!
# No cell of the signature bridge is written with two values

Within a row the columns differ, the running sum of a limb goes down row by row, and limbs, slots and bridge rows follow each
other. The three regions write different columns.
-/

namespace ScriptCircuit

namespace ByteRange

variable {b : ByteRange} (hnodup : b.columns.Nodup)
include hnodup

/-- The decompositions of limbs write every cell once. -/
theorem unique_limbCells (offset : Nat) (limbs : List AssignedCell) : Unique (b.limbCells offset limbs) := by
  induction limbs generalizing offset with
  | nil => exact Unique.of_nodup List.nodup_nil
  | cons limb limbs ih =>
    exact (unique_sumCells hnodup offset limb 32).append (ih (offset + Bridge.Columns.limbRows))
      (Apart.of_row (fun x hx => Nat.lt_succ_of_le (sumCells_bounds hx).2.2) fun x hx => (limbCells_bounds hx).2.1)

end ByteRange

namespace Verification

/-- The columns that the row of a verified signature writes. -/
def columns (v : Verification) : List Column :=
  v.enable :: v.adviceColumns

/-- A verified signature writes every cell once. -/
theorem unique_rowCells {v : Verification} (hnodup : v.columns.Nodup) (offset : Nat) (g : Signature) (key : PublicKey) :
    Unique (v.rowCells offset g key) := by
  have hlimbs : ∀ (block : Vector Column 8) (w : Word), (limbCells block offset w).map Prod.fst = block.toList := by
    intro block w
    rw [limbCells, List.map_map]
    exact List.map_fst_zip (by rw [Vector.length_toList, Vector.length_toList])
  have hcolumns : (v.rowCells offset g key).map Prod.fst = v.columns := by
    simp only [rowCells, List.map_cons, List.map_append, hlimbs, List.map_nil, columns, adviceColumns, List.append_assoc]
  refine Unique.of_nodup ?_
  rw [hcolumns]
  exact hnodup

end Verification

namespace Bridge.Columns

/-- The columns that the bridge rows write. -/
def rowColumns (c : Columns) : List Column :=
  c.isSlot :: c.isEnd :: ([c.challenge, c.checks, c.checksInverse, c.keyAcc, c.keyCombination, c.form] ++ c.powers.toList ++
    c.coordinates.toList)

/-- The columns of both coordinates by turns are the columns of all bytes. -/
theorem flatMap_coordinates (c : Columns) :
    ((c.x.toList.zip c.y.toList).flatMap fun pair => [pair.1, pair.2]) = c.coordinates.toList := by
  have hzip : c.x.toList.zip c.y.toList =
      List.ofFn fun i : Fin 32 => (c.coordinates[2 * i.val], c.coordinates[2 * i.val + 1]) :=
    List.ext_getElem (by simp) fun i _ _ => by
      simp only [x, y, List.getElem_zip, Vector.getElem_toList, Vector.getElem_ofFn, List.getElem_ofFn]
  have hall : c.coordinates.toList = List.ofFn fun i : Fin (32 * 2) => c.coordinates[i.val] :=
    List.ext_getElem (by simp) fun i _ _ => by simp only [Vector.getElem_toList, List.getElem_ofFn]
  rw [hzip, hall, List.ofFn_mul, List.flatMap_def, List.map_ofFn]
  refine congrArg List.flatten (congrArg List.ofFn (funext fun i => ?_))
  simp [Nat.mul_comm]

variable {c : Columns}

/-- The columns of the three regions are all different. -/
theorem Proper.columns_nodup {sys : System} (hc : c.Proper sys) :
    (c.verification.columns ++ (c.range.columns ++ c.rowColumns)).Nodup := by
  have hall : (c.adviceColumns ++ c.markColumns).Nodup := by
    refine List.nodup_append.mpr ⟨hc.advice_nodup, (List.nodup_append.mp hc.fixed_nodup).1, ?_⟩
    rintro column hadvice _ hmark rfl
    exact hc.not_advice (List.mem_append_left _ hmark) hadvice
  refine (List.Perm.nodup_iff (List.perm_iff_count.mpr fun column => ?_)).mp hall
  simp only [adviceColumns, markColumns, Verification.columns, ByteRange.columns, rowColumns, List.count_append,
    List.count_cons, List.count_nil]
  omega

/-- The cells of a bridge row name different columns. -/
theorem unique_slotRow (hnodup : c.rowColumns.Nodup) (row : Nat) (r : Felt) (count : Nat) (acc : Felt) (slot : Slot)
    {bytes : KeyBytes} (hx : bytes.x.length = 32) (hy : bytes.y.length = 32) :
    Unique (c.accumulatorCells row r count acc ++ c.slotRowCells row r count slot bytes) := by
  have hpowers : ((cellsAt row (c.powers.toList.zip ((Combination.powers r 64).drop 1))).map Prod.fst) = c.powers.toList := by
    rw [cellsAt, List.map_map]
    refine List.map_fst_zip ?_
    rw [Vector.length_toList, List.length_drop, Combination.powers, Combination.length_powersFrom]
  have hcoordinates : ((c.coordinatePairs bytes).flatMap fun pair =>
      [(pair.1.1, row, pair.2.1.value), (pair.1.2, row, pair.2.2.value)]).map Prod.fst = c.coordinates.toList := by
    have hpairs : (c.coordinatePairs bytes).map Prod.fst = c.x.toList.zip c.y.toList :=
      List.map_fst_zip (by simp [hx, hy])
    rw [← flatMap_coordinates, ← hpairs, List.map_flatMap, List.flatMap_map]
    rfl
  refine Unique.of_nodup (List.nodup_iff_count_le_one.mpr fun column => ?_)
  have hcount := List.nodup_iff_count_le_one.mp hnodup column
  simp only [rowColumns, List.count_append, List.count_cons, List.count_nil] at hcount
  simp only [accumulatorCells, slotRowCells, List.map_append, List.map_cons, List.map_nil, hpowers, List.count_append,
    List.count_cons, List.count_nil]
  rw [hcoordinates]
  omega

/-- The bridge rows write every cell once. -/
theorem unique_rowsCells (hnodup : c.rowColumns.Nodup) (r : Felt) (row count : Nat) {slots : List (Slot × KeyBytes)}
    (hbytes : ∀ slot ∈ slots, slot.2.x.length = 32 ∧ slot.2.y.length = 32) (accs : List Felt) :
    Unique (c.rowsCells r row count slots accs) := by
  induction slots generalizing row count accs with
  | nil =>
    refine Unique.of_nodup (List.nodup_iff_count_le_one.mpr fun column => ?_)
    have hcount := List.nodup_iff_count_le_one.mp hnodup column
    simp only [rowColumns, List.count_append, List.count_cons, List.count_nil] at hcount
    simp only [rowsCells, accumulatorCells, List.map_append, List.map_cons, List.map_nil, List.count_append,
      List.count_cons, List.count_nil]
    omega
  | cons slot slots ih =>
    rw [List.forall_mem_cons] at hbytes
    have hrow : ∀ x ∈ c.accumulatorCells row r count (accs.headD 0) ++ c.slotRowCells row r count slot.1 slot.2,
        x.2.1 < row + 1 := by
      intro x hx
      rcases List.mem_append.mp hx with hx | hx
      · simp only [accumulatorCells, List.mem_cons, List.not_mem_nil, or_false] at hx
        rcases hx with rfl | rfl | rfl <;> exact Nat.lt_succ_self row
      · exact Nat.lt_succ_of_le (Nat.le_of_eq (slotRowCells_bounds hx).2)
    have hall := (unique_slotRow hnodup row r count (accs.headD 0) slot.1 hbytes.1.1 hbytes.1.2).append
      (ih (row + 1) (count - 1) hbytes.2 accs.tail) (Apart.of_row hrow fun x hx => (rowsCells_bounds hx).2.1)
    rw [List.append_assoc] at hall
    exact hall

/-- The decompositions of a key write every cell once. -/
theorem unique_keyCells (hnodup : c.range.columns.Nodup) (offset : Nat) {limbs : List (AssignedCell × AssignedCell)}
    (hlimbs : limbs.length = 8) : Unique (c.keyCells offset limbs) := by
  have hfirst : ∀ x ∈ c.range.limbCells offset (limbs.map Prod.fst), x.2.1 < offset + 8 * limbRows := by
    intro x hx
    have hhigh := (ByteRange.limbCells_bounds hx).2.2
    rw [List.length_map, hlimbs] at hhigh
    exact hhigh
  refine ((ByteRange.unique_limbCells hnodup offset (limbs.map Prod.fst)).append
    (ByteRange.unique_limbCells hnodup (offset + 8 * limbRows) (limbs.map Prod.snd))
    (Apart.of_row hfirst fun x hx => (ByteRange.limbCells_bounds hx).2.1)).of_subset fun x hx => ?_
  exact List.mem_append.mpr (mem_keyCells.mp hx)

/-! ## The whole bridge -/

/-- The bytes of both coordinates. -/
theorem length_slotBytes (c : Columns) (verification range : Nat) (slot : Slot × Nat) :
    (c.slotBytes verification range slot).x.length = 32 ∧ (c.slotBytes verification range slot).y.length = 32 := by
  constructor
  · rw [slotBytes, keyBytes, ByteRange.length_limbBytes, List.length_map, length_limbPairs]
  · rw [slotBytes, keyBytes, ByteRange.length_limbBytes, List.length_map, length_limbPairs]

section

variable {verification range bridge : Nat} (hrange : verification + maxSignatures ≤ range)
  (hbridge : range + maxSignatures * slotRows ≤ bridge) (hsize : bridge + (maxSignatures + 1) ≤ UInt64.size)
include hrange hbridge hsize

/-- The rows of the cells of a slot. -/
theorem row_of_mem_slotCells {slot : Slot} {i : Nat} (hi : i < maxSignatures) {x : Column × Nat × Felt}
    (h : x ∈ c.slotCells verification range (slot, i)) :
    x.2.1 = verification + i ∨ range + i * slotRows ≤ x.2.1 ∧ x.2.1 < range + (i + 1) * slotRows := by
  have hend : (i + 1) * slotRows ≤ maxSignatures * slotRows := Nat.mul_le_mul_right _ hi
  rw [Nat.succ_mul] at hend ⊢
  rcases List.mem_append.mp h with h | h
  · obtain ⟨y, hy, rfl⟩ := List.mem_map.mp h
    obtain ⟨-, hrow⟩ := Verification.rowCells_bounds hy
    exact .inl ((congrArg (rowAt verification) hrow).trans (rowAt_eq (by dsimp only; omega)))
  · obtain ⟨y, hy, rfl⟩ := List.mem_map.mp h
    obtain ⟨-, hlow, hhigh⟩ := keyCells_bounds (c.length_limbPairs ..) hy
    dsimp only at hlow hhigh
    have hrow : rowAt range y.2.1 = range + y.2.1 := rowAt_eq (by omega)
    refine .inr ?_
    change _ ≤ rowAt range y.2.1 ∧ rowAt range y.2.1 < _
    rw [hrow]
    omega

variable {r : Felt} {slots : List Slot} {count : Nat} (hslots : slots.length = maxSignatures)
include hslots

/-- What the slots write lies above the bridge rows. -/
theorem row_of_mem_slots {x : Column × Nat × Felt} (h : x ∈ (slots.zipIdx 0).flatMap (c.slotCells verification range)) :
    x.2.1 < bridge := by
  obtain ⟨⟨slot, i⟩, hslot, hx⟩ := List.mem_flatMap.mp h
  have hi : i < maxSignatures := by
    rw [← hslots]
    exact (List.getElem?_eq_some_iff.mp (List.mem_zipIdx_iff_getElem?.mp hslot)).1
  have hend : (i + 1) * slotRows ≤ maxSignatures * slotRows := Nat.mul_le_mul_right _ hi
  have hrow := row_of_mem_slotCells hrange hbridge hsize hi hx
  omega

omit hrange hbridge in
/-- What the bridge rows write lies in them. -/
theorem row_of_mem_rows {x : Column × Nat × Felt} (h : x ∈ placed bridge
    (c.rowsCells r 0 count (c.slotsWithBytes verification range slots) (accumulators r slots count))) :
    bridge ≤ x.2.1 ∧ x.2.1 < bridge + (maxSignatures + 1) := by
  obtain ⟨y, hy, rfl⟩ := List.mem_map.mp h
  obtain ⟨-, hlow, hhigh⟩ := rowsCells_bounds hy
  rw [length_slotsWithBytes, hslots] at hhigh
  have hrow : rowAt bridge y.2.1 = bridge + y.2.1 := rowAt_eq (by omega)
  change _ ≤ rowAt bridge y.2.1 ∧ rowAt bridge y.2.1 < _
  rw [hrow]
  omega

/-- The cells of the bridge lie above the end of its last region. -/
theorem row_lt_of_mem_bridgeCells {x : Column × Nat × Felt}
    (h : x ∈ c.bridgeCells verification range bridge r slots count) : x.2.1 < bridge + (maxSignatures + 1) := by
  rcases List.mem_append.mp h with h | h
  · exact Nat.lt_add_right _ (row_of_mem_slots hrange hbridge hsize hslots h)
  · exact (row_of_mem_rows hsize hslots h).2

/-- No cell of the bridge is written with two values. -/
theorem Proper.unique_bridgeCells {sys : System} (hc : c.Proper sys) :
    Unique (c.bridgeCells verification range bridge r slots count) := by
  obtain ⟨hverification, hrest, -⟩ := List.nodup_append.mp hc.columns_nodup
  obtain ⟨hdecomposition, hrows, -⟩ := List.nodup_append.mp hrest
  have hslot : ∀ (slot : Slot) i, i < maxSignatures → Unique (c.slotCells verification range (slot, i)) := by
    intro slot i hi
    have hend : (i + 1) * slotRows ≤ maxSignatures * slotRows := Nat.mul_le_mul_right _ hi
    rw [Nat.succ_mul] at hend
    refine ((Verification.unique_rowCells hverification i slot.signature slot.key).placed fun x hx => ?_).append
      ((unique_keyCells hdecomposition (i * slotRows) (c.length_limbPairs ..)).placed fun x hx => ?_)
      (Apart.of_row (fun x hx => (?_ : x.2.1 < range)) fun x hx => ?_)
    · rw [(Verification.rowCells_bounds hx).2]
      omega
    · have hhigh := (keyCells_bounds (c.length_limbPairs ..) hx).2.2
      omega
    · obtain ⟨y, hy, rfl⟩ := List.mem_map.mp hx
      have hrow : rowAt verification y.2.1 = verification + y.2.1 :=
        rowAt_eq (by rw [(Verification.rowCells_bounds hy).2]; omega)
      change rowAt verification y.2.1 < range
      rw [hrow, (Verification.rowCells_bounds hy).2]
      omega
    · obtain ⟨y, hy, rfl⟩ := List.mem_map.mp hx
      have hhigh : y.2.1 < i * slotRows + slotRows := (keyCells_bounds (c.length_limbPairs ..) hy).2.2
      have hrow : rowAt range y.2.1 = range + y.2.1 := rowAt_eq (by omega)
      change range ≤ rowAt range y.2.1
      rw [hrow]
      exact Nat.le_add_right ..
  have hbytes : ∀ slot ∈ c.slotsWithBytes verification range slots, slot.2.x.length = 32 ∧ slot.2.y.length = 32 := by
    intro slot hmem
    obtain ⟨other, -, hother⟩ := List.mem_map.mp (List.of_mem_zip hmem).2
    rw [← hother]
    exact c.length_slotBytes verification range other
  refine (Unique.flatMap_zipIdx (fun slot i hi => hslot slot i ?_) fun slot other i j hlt hj => ?_).append
    ((unique_rowsCells hrows r 0 count hbytes _).placed fun x hx => ?_)
    (Apart.of_row (fun x hx => row_of_mem_slots hrange hbridge hsize hslots hx) fun x hx =>
      (row_of_mem_rows hsize hslots hx).1)
  · rw [← hslots]
    exact (List.getElem?_eq_some_iff.mp hi).1
  · rw [hslots] at hj
    intro x hx y hy _
    have hx := row_of_mem_slotCells hrange hbridge hsize (Nat.lt_trans hlt hj) hx
    have hy := row_of_mem_slotCells hrange hbridge hsize hj hy
    have hend : (j + 1) * slotRows ≤ maxSignatures * slotRows := Nat.mul_le_mul_right _ hj
    have hbefore : (i + 1) * slotRows ≤ j * slotRows := Nat.mul_le_mul_right _ hlt
    omega
  · obtain ⟨-, -, hhigh⟩ := rowsCells_bounds hx
    rw [length_slotsWithBytes, hslots] at hhigh
    omega

end

end Bridge.Columns

end ScriptCircuit
