import Mathlib
import ScriptCircuit.Proofs.Bridge.Slots

/-!
# The layout of the signature bridge

What the synthesis of the bridge leaves behind, over regions that lie in the matrix: the slots one after the other, and the
bridge rows over the bytes of their keys. It ends well exactly when the signatures go with the keys and every slot verifies.
-/

namespace ScriptCircuit

theorem ParityTable.length_rows : rows.length = size := by
  simp [rows, size]

namespace Bridge

open MatrixAux

/-- The signature of a slot verifies. -/
def Slot.Verifies (slot : Slot) : Prop :=
  slot.signature.verifies slot.key Signature.messageHash = true

instance (slot : Slot) : Decidable slot.Verifies := inferInstanceAs (Decidable (_ = true))

namespace Columns

/-- The matrix has the columns that the slots and the bridge rows write. -/
def InMatrix (c : Columns) (m : Matrix) : Prop :=
  ∀ column ∈ c.adviceColumns ++ c.markColumns, m.HasColumn column

/-- Writes keep the columns. -/
theorem InMatrix.writeAll {c : Columns} {m : Matrix} (h : c.InMatrix m) (cells : List (Column × Nat × Felt)) :
    c.InMatrix (m.writeAll cells) := fun column hcolumn =>
  (Matrix.hasColumn_writeAll m cells column).mpr (h column hcolumn)

/-! ## The slots -/

section

variable (c : Columns) (verification range : Nat)

/-- The cells that a slot writes, for verification and range regions that start at given rows. -/
def slotCells (slot : Slot × Nat) : List (Column × Nat × Felt) :=
  placed verification (c.verification.rowCells slot.2 slot.1.signature slot.1.key) ++
    placed range (c.keyCells (slot.2 * slotRows) (c.limbPairs verification slot.2 slot.1.key))

/-- The copy constraints of the decompositions of a slot. -/
def slotCopies (slot : Slot × Nat) : List Copy :=
  linked range (c.keyLinks (slot.2 * slotRows) (c.limbPairs verification slot.2 slot.1.key))

/-- The byte cells of the key of a slot. -/
def slotBytes (slot : Slot × Nat) : KeyBytes :=
  c.keyBytes range (slot.2 * slotRows) (c.limbPairs verification slot.2 slot.1.key)

end

variable {c : Columns}

/-- The row of a slot fits into a verification region that has it. -/
theorem InMatrix.fits_row {m : Matrix} (h : c.InMatrix m) {verification : Region} (hv : verification.Inside m) {i : Nat}
    (hi : i < verification.height) (g : Signature) (key : PublicKey) :
    ∀ x ∈ c.verification.rowCells i g key, Filling.Fits ⟨verification, m⟩ x.1 x.2.1 := by
  intro x hx
  obtain ⟨hcolumn, hrow⟩ := Verification.rowCells_bounds hx
  rw [hrow]
  refine hv.fits (h _ ?_) hi
  rcases hcolumn with hadvice | ⟨henable, -⟩
  · exact List.mem_append_left _ (List.mem_append_left _ hadvice)
  · rw [henable]
    simp [markColumns]

/-- The decompositions of eight pairs of limbs fit into a range region that has their rows. -/
theorem InMatrix.fits_limbs {m : Matrix} (h : c.InMatrix m) {range : Region} (hr : range.Inside m) {offset : Nat}
    {limbs : List (AssignedCell × AssignedCell)} (hlimbs : limbs.length = 8) (hrows : offset + slotRows ≤ range.height) :
    ∀ x ∈ c.keyCells offset limbs, Filling.Fits ⟨range, m⟩ x.1 x.2.1 := by
  intro x hx
  obtain ⟨hcolumn, -, hrow⟩ := keyCells_bounds hlimbs hx
  refine hr.fits (h _ ?_) (Nat.lt_of_lt_of_le hrow hrows)
  rcases hcolumn with (hcolumn | hcolumn) | ⟨hcolumn | hcolumn, -⟩
  all_goals
    rw [hcolumn]
    simp [adviceColumns, markColumns]

/-- The decomposition of a key fits into a range region that has its rows. -/
theorem InMatrix.fits_key {m : Matrix} (h : c.InMatrix m) {range : Region} (hr : range.Inside m) {i : Nat}
    (hi : (i + 1) * slotRows ≤ range.height) (start : Nat) (key : PublicKey) :
    ∀ x ∈ c.keyCells (i * slotRows) (c.limbPairs start i key), Filling.Fits ⟨range, m⟩ x.1 x.2.1 := by
  rw [Nat.succ_mul] at hi
  exact h.fits_limbs hr (c.length_limbPairs ..) hi

variable {sys : System} (hc : c.Proper sys)
include hc

/-- The matrix of the system has the columns of the bridge. -/
theorem Proper.hasColumn_zero (rows : Nat) {column : Column}
    (h : column ∈ c.adviceColumns ∨ column ∈ c.markColumns ++ c.tableColumns) :
    (Matrix.zero sys rows).HasColumn column :=
  h.elim (fun h => Matrix.hasColumn_zero_advice rows (hc.advice_kind column h))
    fun h => Matrix.hasColumn_zero_fixed rows (hc.fixed_kind column h)

/-- The matrix of zeros has the columns. -/
theorem Proper.inMatrix (rows : Nat) : c.InMatrix (Matrix.zero sys rows) := by
  intro column hcolumn
  rcases List.mem_append.mp hcolumn with h | h
  · exact hc.hasColumn_zero rows (.inl h)
  · exact hc.hasColumn_zero rows (.inr (List.mem_append_left _ h))

/-- The matrix of the system has the tables of the lookups. -/
theorem Proper.hasTables (rows : Nat) :
    ∀ l ∈ c.range.lookups ++ c.lookups, ∀ column ∈ l.table, (Matrix.zero sys rows).HasColumn column := by
  have htable : ∀ column ∈ c.tableColumns, (Matrix.zero sys rows).HasColumn column := fun column hcolumn =>
    hc.hasColumn_zero rows (.inr (List.mem_append_right _ hcolumn))
  intro l hl column hcolumn
  simp only [lookups, ByteRange.lookups, List.mem_append, List.mem_singleton] at hl
  rcases hl with rfl | rfl
  · obtain rfl := List.mem_singleton.mp hcolumn
    exact htable _ (by simp [tableColumns])
  · simp only [ParityTable.Columns.lookup, Lookup.table, List.map_cons, List.map_nil, List.mem_cons, List.not_mem_nil,
      or_false] at hcolumn
    rcases hcolumn with rfl | rfl
    · exact htable _ (by simp [tableColumns])
    · exact htable _ (by simp [tableColumns])

/-- The row of a slot is written when its signature verifies. -/
theorem Proper.ends_verify {m : Matrix} (hcolumns : c.InMatrix m) {verification : Region} (hv : verification.Inside m)
    {i : Nat} (hi : i < verification.height) {slot : Slot} {copies : List Copy} {l l' : Layouter} {x : KeyLimbs × Region} :
    (Synthesis.fill verification (c.verification.assign i slot.signature slot.key Signature.messageHash)).Ends
        (l.withWitness ⟨m, copies⟩) x l' ↔
      slot.Verifies ∧
        x = (⟨Verification.limbsAt c.verification.x verification.start i slot.key.x,
          Verification.limbsAt c.verification.y verification.start i slot.key.y⟩, verification) ∧
        l' = l.withWitness ⟨m.writeAll
          (placed verification.start (c.verification.rowCells i slot.signature slot.key)), copies⟩ := by
  by_cases h : slot.Verifies
  · have hdoes : (c.verification.assign i slot.signature slot.key Signature.messageHash).Does sys _ _ _ :=
      Verification.does_assign hc.verification_kind i h
    have hsame : { verification with copies := verification.copies ++ ScriptCircuit.linked verification.start [] } =
        verification := by
      rw [ScriptCircuit.linked, List.map_nil, List.append_nil]
    rw [and_iff_right h, Synthesis.ends_fill_does hdoes (hcolumns.fits_row hv hi _ _) (List.forall_mem_nil _), hsame]
  · refine iff_of_false (fun hends => ?_) fun hends => h hends.1
    obtain ⟨_, _, hwork, -⟩ := Synthesis.ends_fill.mp hends
    exact Verification.not_ends_assign (Bool.not_eq_true _ ▸ h) hwork

/-- The key of a slot is decomposed. -/
theorem Proper.ends_decompose {m : Matrix} (hcolumns : c.InMatrix m) {range : Region} (hr : range.Inside m) {i : Nat}
    (hi : (i + 1) * slotRows ≤ range.height) {start : Nat} {slot : Slot} {copies : List Copy} {l l' : Layouter}
    {x : KeyBytes × Region} :
    (Synthesis.fill range (c.assignBytes sys (i * slotRows) (c.limbPairs start i slot.key))).Ends
        (l.withWitness ⟨m, copies⟩) x l' ↔
      x = (c.slotBytes start range.start (slot, i),
          { range with copies := range.copies ++ c.slotCopies start range.start (slot, i) }) ∧
        l' = l.withWitness
          ⟨m.writeAll (placed range.start (c.keyCells (i * slotRows) (c.limbPairs start i slot.key))), copies⟩ :=
  Synthesis.ends_fill_does (hc.does_assignBytes (i * slotRows) (c.limbPairs_lt start i slot.key))
    (hcolumns.fits_key hr hi start slot.key) hc.links_key

/-- The slots end well when all their signatures verify. -/
theorem Proper.ends_assignSlots {slots : List Slot} {i : Nat} {m : Matrix} (hcolumns : c.InMatrix m)
    {verification range : Region} (hv : verification.Inside m) (hr : range.Inside m)
    (hi : i + slots.length ≤ verification.height) (hrows : (i + slots.length) * slotRows ≤ range.height)
    {copies : List Copy} {l l' : Layouter} {out : List KeyBytes × Region × Region} :
    (c.assignSlots sys i verification range slots).Ends (l.withWitness ⟨m, copies⟩) out l' ↔
      (∀ slot ∈ slots, slot.Verifies) ∧
        out = ((slots.zipIdx i).map (c.slotBytes verification.start range.start), verification,
          { range with copies := range.copies ++ (slots.zipIdx i).flatMap (c.slotCopies verification.start range.start) }) ∧
        l' = l.withWitness
          ⟨m.writeAll ((slots.zipIdx i).flatMap (c.slotCells verification.start range.start)), copies⟩ := by
  induction slots generalizing i m range out l' with
  | nil =>
    change (pure _ : Synthesis _).Ends _ _ _ ↔ _
    rw [Synthesis.ends_pure]
    simp [Matrix.writeAll_nil]
  | cons slot slots ih =>
    have hbody : c.assignSlots sys i verification range (slot :: slots) =
        Synthesis.fill verification (c.verification.assign i slot.signature slot.key Signature.messageHash) >>= fun x =>
        Synthesis.fill range (c.assignBytes sys (i * slotRows) (x.1.x.zip x.1.y)) >>= fun y =>
        c.assignSlots sys (i + 1) x.2 y.2 slots >>= fun z => pure (y.1 :: z.1, z.2.1, z.2.2) := rfl
    rw [List.length_cons] at hi hrows
    have hslot : i < verification.height := by omega
    have hrange : (i + 1) * slotRows ≤ range.height :=
      Nat.le_trans (Nat.mul_le_mul_right _ (by omega)) hrows
    have hi' : i + 1 + slots.length ≤ verification.height := by omega
    have hrows' : (i + 1 + slots.length) * slotRows ≤ range.height := by
      rw [Nat.add_assoc, Nat.add_comm 1]
      exact hrows
    -- The matrix once the slot is written, and the range region with its copies.
    let m' := (m.writeAll (placed verification.start (c.verification.rowCells i slot.signature slot.key))).writeAll
      (placed range.start (c.keyCells (i * slotRows) (c.limbPairs verification.start i slot.key)))
    let range' := { range with copies := range.copies ++ c.slotCopies verification.start range.start (slot, i) }
    have hr' : range'.Inside m' := (hr.writeAll _).writeAll _
    have hrest : ∀ {out l'}, (c.assignSlots sys (i + 1) verification range' slots).Ends
        (l.withWitness ⟨m', copies⟩) out l' ↔ _ :=
      ih ((hcolumns.writeAll _).writeAll _) ((hv.writeAll _).writeAll _) hr' hi' hrows'
    have hcells : m.writeAll (((slot, i) :: slots.zipIdx (i + 1)).flatMap
        (c.slotCells verification.start range.start)) =
          m'.writeAll ((slots.zipIdx (i + 1)).flatMap (c.slotCells verification.start range.start)) := by
      rw [List.flatMap_cons, Matrix.writeAll_append, slotCells, Matrix.writeAll_append]
    rw [hbody, Synthesis.ends_bind_of_and fun _ _ => hc.ends_verify hcolumns hv hslot, List.forall_mem_cons, and_assoc]
    refine and_congr_right fun _ => ?_
    refine (Synthesis.ends_bind_of fun _ _ => hc.ends_decompose (hcolumns.writeAll _) (hr.writeAll _) hrange).trans ?_
    refine (Synthesis.ends_bind_of_and fun _ _ => hrest).trans (and_congr_right fun _ => ?_)
    rw [Synthesis.ends_pure, List.zipIdx_cons, hcells, List.map_cons, List.flatMap_cons, List.append_assoc]

omit hc

/-! ## The bridge rows -/

/-- The columns of the coordinates of a row, pair by pair, with the cells of the bytes. -/
def coordinatePairs (c : Columns) (bytes : KeyBytes) : List ((Column × Column) × AssignedCell × AssignedCell) :=
  (c.x.toList.zip c.y.toList).zip (bytes.x.zip bytes.y)

/-- The columns of the first coordinate are among those of the coordinates. -/
theorem x_subset (c : Columns) : c.x.toList ⊆ c.coordinates.toList := by
  intro column hcolumn
  obtain ⟨i, hi, rfl⟩ := Vector.mem_iff_getElem.mp (Vector.mem_toList_iff.mp hcolumn)
  rw [Vector.mem_toList_iff, x, Vector.getElem_ofFn]
  exact Vector.getElem_mem _

/-- The columns of the second coordinate are among those of the coordinates. -/
theorem y_subset (c : Columns) : c.y.toList ⊆ c.coordinates.toList := by
  intro column hcolumn
  obtain ⟨i, hi, rfl⟩ := Vector.mem_iff_getElem.mp (Vector.mem_toList_iff.mp hcolumn)
  rw [Vector.mem_toList_iff, y, Vector.getElem_ofFn]
  exact Vector.getElem_mem _

/-- The cells of the accumulators of a row. -/
def accumulatorCells (c : Columns) (row : Nat) (r : Felt) (count : Nat) (acc : Felt) : List (Column × Nat × Felt) :=
  [(c.challenge, row, r), (c.checks, row, .ofNat count), (c.keyAcc, row, acc)]

/-- The cells of the row of a slot besides. -/
def slotRowCells (c : Columns) (row : Nat) (r : Felt) (count : Nat) (slot : Slot) (bytes : KeyBytes) :
    List (Column × Nat × Felt) :=
  (c.isSlot, row, 1) ::
    (cellsAt row (c.powers.toList.zip ((Combination.powers r 64).drop 1)) ++
      ((c.checksInverse, row, (Felt.ofNat count).inv) :: (c.keyCombination, row, slot.combination r) ::
        (c.form, row, .ofByte slot.form) ::
        (c.coordinatePairs bytes).flatMap fun ((x, y), xByte, yByte) => [(x, row, xByte.value), (y, row, yByte.value)]))

/-- The copy constraints of the row of a slot. -/
def slotRowLinks (c : Columns) (row : Nat) (bytes : KeyBytes) : List (Cell × Column × Nat) :=
  (c.coordinatePairs bytes).flatMap fun ((x, y), xByte, yByte) => [(xByte.cell, x, row), (yByte.cell, y, row)]

/-- The cells of the bridge rows from a row on. -/
def rowsCells (c : Columns) (r : Felt) (row count : Nat) :
    List (Slot × KeyBytes) → List Felt → List (Column × Nat × Felt)
  | [], accs => c.accumulatorCells row r count (accs.headD 0) ++ [(c.isEnd, row, 1)]
  | (slot, bytes) :: rest, accs =>
    c.accumulatorCells row r count (accs.headD 0) ++
      (c.slotRowCells row r count slot bytes ++ rowsCells c r (row + 1) (count - 1) rest accs.tail)

/-- The copy constraints of the bridge rows from a row on. -/
def rowsLinks (c : Columns) (row : Nat) : List (Slot × KeyBytes) → List (Cell × Column × Nat)
  | [] => []
  | (_, bytes) :: rest => c.slotRowLinks row bytes ++ rowsLinks c (row + 1) rest

section

include hc

/-- Assigning the accumulators writes the challenge, the count and the fold of a row. -/
theorem Proper.does_assignAccumulators (row : Nat) (r : Felt) (count : Nat) (acc : Felt) :
    (discard (c.assignAccumulators row r count acc) : Fill Unit).Does sys (c.accumulatorCells row r count acc) [] fun _ =>
      () := by
  have hkind : ∀ column ∈ [c.challenge, c.checks, c.keyAcc], column.kind = .advice := by
    intro column hcolumn
    refine (hc.advice_kind column ?_).1
    simp only [List.mem_cons, List.not_mem_nil, or_false] at hcolumn
    rcases hcolumn with rfl | rfl | rfl
    all_goals simp [adviceColumns]
  have hchallenge : (Fill.assignAdvice c.challenge row r).Does sys _ _ _ :=
    Fill.does_assignAdvice row r (hkind _ (by simp))
  have hchecks : (Fill.assignAdvice c.checks row (.ofNat count)).Does sys _ _ _ :=
    Fill.does_assignAdvice row (.ofNat count) (hkind _ (by simp))
  have hkeyAcc : (Fill.assignAdvice c.keyAcc row acc).Does sys _ _ _ :=
    Fill.does_assignAdvice row acc (hkind _ (by simp))
  exact (hchallenge.bind fun challenge => hchecks.bind fun checks => hkeyAcc.map fun keyAcc =>
    (⟨challenge, keyAcc, checks⟩ : Cells)).discard

/-- Assigning the coordinates copies every byte into its column. -/
theorem Proper.does_assignCoordinates (row : Nat) (bytes : KeyBytes) :
    ((c.coordinatePairs bytes).forM fun ((x, y), xByte, yByte) => do
      discard (Fill.copyAdvice sys xByte x row)
      discard (Fill.copyAdvice sys yByte y row) : Fill Unit).Does sys
      ((c.coordinatePairs bytes).flatMap fun ((x, y), xByte, yByte) => [(x, row, xByte.value), (y, row, yByte.value)])
      (c.slotRowLinks row bytes) fun _ => () := by
  refine Fill.does_forM fun pair hpair => ?_
  obtain ⟨hcolumns, -⟩ := List.of_mem_zip hpair
  obtain ⟨hx, hy⟩ := List.of_mem_zip hcolumns
  have hkind : ∀ column ∈ c.coordinates.toList, column.kind = .advice := fun column hcolumn =>
    (hc.advice_kind column (by simp [adviceColumns, Vector.mem_toList_iff.mp hcolumn])).1
  exact (Fill.does_copyAdvice pair.2.1 row (hkind _ (x_subset c hx))).discard.andThen
    (Fill.does_copyAdvice pair.2.2 row (hkind _ (y_subset c hy))).discard

/-- Assigning a slot writes its row and copies the bytes of its key. -/
theorem Proper.does_assignSlot (row : Nat) (r : Felt) (count : Nat) (slot : Slot) (bytes : KeyBytes) :
    (c.assignSlot sys row r count slot bytes).Does sys (c.slotRowCells row r count slot bytes)
      (c.slotRowLinks row bytes) fun _ => () := by
  have hkind : ∀ column ∈ [c.checksInverse, c.keyCombination, c.form], column.kind = .advice := by
    intro column hcolumn
    refine (hc.advice_kind column ?_).1
    simp only [List.mem_cons, List.not_mem_nil, or_false] at hcolumn
    rcases hcolumn with rfl | rfl | rfl
    all_goals simp [adviceColumns]
  have hpowers : ∀ x ∈ c.powers.toList.zip ((Combination.powers r 64).drop 1), x.1.kind = .advice := fun x hx =>
    (hc.advice_kind x.1 (by simp [adviceColumns, Vector.mem_toList_iff.mp (List.of_mem_zip hx).1])).1
  have hinverse : (discard (c.done.assign row (.ofNat count)) : Fill Unit).Does sys _ _ _ :=
    (Fill.does_assignAdvice row (Felt.ofNat count).inv (hkind c.checksInverse (by simp))).discard
  have hcombination : (discard (Fill.assignAdvice c.keyCombination row (slot.combination r)) : Fill Unit).Does sys _ _ _ :=
    (Fill.does_assignAdvice row (slot.combination r) (hkind c.keyCombination (by simp))).discard
  have hform : (discard (Fill.assignAdvice c.form row (.ofByte slot.form)) : Fill Unit).Does sys _ _ _ :=
    (Fill.does_assignAdvice row (.ofByte slot.form) (hkind c.form (by simp))).discard
  have hslot := (Fill.does_enable c.isSlot row).andThen ((Fill.does_assignAll row hpowers).andThen (hinverse.andThen
    (hcombination.andThen (hform.andThen (hc.does_assignCoordinates row bytes)))))
  simp only [List.nil_append, List.cons_append] at hslot
  exact hslot

/-- Assigning the bridge rows writes one row for each slot and the one behind them. -/
theorem Proper.does_assignRows (r : Felt) (row count : Nat) (slots : List (Slot × KeyBytes)) (accs : List Felt) :
    (c.assignRows sys r row count slots accs).Does sys (c.rowsCells r row count slots accs) (c.rowsLinks row slots)
      fun _ => () := by
  induction slots generalizing row count accs with
  | nil => exact (hc.does_assignAccumulators row r count (accs.headD 0)).andThen (Fill.does_enable c.isEnd row)
  | cons slot slots ih =>
    have hrows := (hc.does_assignAccumulators row r count (accs.headD 0)).andThen
      ((hc.does_assignSlot row r count slot.1 slot.2).andThen (ih (row + 1) (count - 1) accs.tail))
    rw [List.nil_append] at hrows
    exact hrows

omit hc

/-- The cells of a slot lie in its row, in advice columns or under its mark. -/
theorem slotRowCells_bounds {row count : Nat} {r : Felt} {slot : Slot} {bytes : KeyBytes} {x : Column × Nat × Felt}
    (h : x ∈ c.slotRowCells row r count slot bytes) :
    (x.1 ∈ c.adviceColumns ∨ x.1 = c.isSlot ∧ x.2.2 = 1) ∧ x.2.1 = row := by
  simp only [slotRowCells, List.mem_cons, List.mem_append, List.mem_flatMap, List.not_mem_nil, or_false] at h
  rcases h with rfl | h | rfl | rfl | rfl | ⟨pair, hpair, rfl | rfl⟩
  · exact ⟨.inr ⟨rfl, rfl⟩, rfl⟩
  · obtain ⟨⟨column, power⟩, hzip, rfl⟩ := List.mem_map.mp h
    exact ⟨.inl (by simp [adviceColumns, Vector.mem_toList_iff.mp (List.of_mem_zip hzip).1]), rfl⟩
  · exact ⟨.inl (by simp [adviceColumns]), rfl⟩
  · exact ⟨.inl (by simp [adviceColumns]), rfl⟩
  · exact ⟨.inl (by simp [adviceColumns]), rfl⟩
  · have hmem := c.x_subset (List.of_mem_zip (List.of_mem_zip hpair).1).1
    exact ⟨.inl (by simp [adviceColumns, Vector.mem_toList_iff.mp hmem]), rfl⟩
  · have hmem := c.y_subset (List.of_mem_zip (List.of_mem_zip hpair).1).2
    exact ⟨.inl (by simp [adviceColumns, Vector.mem_toList_iff.mp hmem]), rfl⟩

/-- The cells of the bridge rows lie in these rows, in advice columns or under the marks. -/
theorem rowsCells_bounds {r : Felt} {row count : Nat} {slots : List (Slot × KeyBytes)} {accs : List Felt}
    {x : Column × Nat × Felt} (h : x ∈ c.rowsCells r row count slots accs) :
    (x.1 ∈ c.adviceColumns ∨ (x.1 = c.isSlot ∨ x.1 = c.isEnd) ∧ x.2.2 = 1) ∧ row ≤ x.2.1 ∧ x.2.1 ≤ row + slots.length := by
  have haccumulators : ∀ {row count acc}, x ∈ c.accumulatorCells row r count acc → x.1 ∈ c.adviceColumns ∧ x.2.1 = row := by
    intro row count acc hx
    simp only [accumulatorCells, List.mem_cons, List.not_mem_nil, or_false] at hx
    rcases hx with rfl | rfl | rfl
    all_goals exact ⟨by simp [adviceColumns], rfl⟩
  induction slots generalizing row count accs with
  | nil =>
    rcases List.mem_append.mp h with h | h
    · obtain ⟨hcolumn, hrow⟩ := haccumulators h
      exact ⟨.inl hcolumn, Nat.le_of_eq hrow.symm, Nat.le_of_eq hrow⟩
    · obtain rfl := List.mem_singleton.mp h
      exact ⟨.inr ⟨.inr rfl, rfl⟩, Nat.le_refl _, Nat.le_refl _⟩
  | cons slot slots ih =>
    rw [List.length_cons]
    rcases List.mem_append.mp h with h | h
    · obtain ⟨hcolumn, hrow⟩ := haccumulators h
      exact ⟨.inl hcolumn, by omega, by omega⟩
    · rcases List.mem_append.mp h with h | h
      · obtain ⟨hcolumn, hrow⟩ := slotRowCells_bounds h
        exact ⟨hcolumn.imp_right fun hmark => ⟨.inl hmark.1, hmark.2⟩, by omega, by omega⟩
      · obtain ⟨hcolumn, hlow, hhigh⟩ := ih h
        exact ⟨hcolumn, by omega, by omega⟩

/-- The rows of the slots are marked. -/
theorem marks_isSlot (hadvice : c.isSlot ∉ c.adviceColumns) (hend : c.isEnd ≠ c.isSlot) (r : Felt) (row count : Nat)
    (slots : List (Slot × KeyBytes)) (accs : List Felt) : Marks (c.rowsCells r row count slots accs) c.isSlot
      fun row' => row ≤ row' ∧ row' < row + slots.length := by
  have haccumulators : ∀ row count acc, Marks (c.accumulatorCells row r count acc) c.isSlot fun _ => False := by
    intro row count acc
    refine Marks.of_forall_ne fun x hx heq => hadvice (heq ▸ ?_)
    simp only [accumulatorCells, List.mem_cons, List.not_mem_nil, or_false] at hx
    rcases hx with rfl | rfl | rfl
    all_goals simp [adviceColumns]
  have hslotRow : ∀ row count slot bytes, Marks (c.slotRowCells row r count slot bytes) c.isSlot (· = row) := by
    intro row count slot bytes row' x
    constructor
    · intro hmem
      obtain ⟨hcolumn, hrow⟩ := slotRowCells_bounds hmem
      exact ⟨hrow, (hcolumn.resolve_left hadvice).2⟩
    · rintro ⟨rfl, rfl⟩
      exact List.mem_cons_self
  induction slots generalizing row count accs with
  | nil =>
    refine ((haccumulators row count (accs.headD 0)).append (Marks.of_forall_ne fun x hx => ?_)).congr fun row' => ?_
    · obtain rfl := List.mem_singleton.mp hx
      exact hend
    · simp only [List.length_nil, false_or, false_iff]
      omega
  | cons slot slots ih =>
    refine ((haccumulators row count (accs.headD 0)).append ((hslotRow row count slot.1 slot.2).append
      (ih (row + 1) (count - 1) accs.tail))).congr fun row' => ?_
    simp only [List.length_cons, false_or]
    omega

/-- The row behind the slots is marked. -/
theorem marks_isEnd (hadvice : c.isEnd ∉ c.adviceColumns) (hslot : c.isSlot ≠ c.isEnd) (r : Felt) (row count : Nat)
    (slots : List (Slot × KeyBytes)) (accs : List Felt) :
    Marks (c.rowsCells r row count slots accs) c.isEnd (· = row + slots.length) := by
  have haccumulators : ∀ row count acc, Marks (c.accumulatorCells row r count acc) c.isEnd fun _ => False := by
    intro row count acc
    refine Marks.of_forall_ne fun x hx heq => hadvice (heq ▸ ?_)
    simp only [accumulatorCells, List.mem_cons, List.not_mem_nil, or_false] at hx
    rcases hx with rfl | rfl | rfl
    all_goals simp [adviceColumns]
  have hslotRow : ∀ row count slot bytes, Marks (c.slotRowCells row r count slot bytes) c.isEnd fun _ => False := by
    intro row count slot bytes
    refine Marks.of_forall_ne fun x hx heq => ?_
    rcases (slotRowCells_bounds hx).1 with hcolumn | ⟨hcolumn, -⟩
    · exact hadvice (heq ▸ hcolumn)
    · exact hslot (hcolumn.symm.trans heq)
  induction slots generalizing row count accs with
  | nil =>
    refine ((haccumulators row count (accs.headD 0)).append (Marks.single c.isEnd row)).congr fun row' => ?_
    rw [false_or]
    rfl
  | cons slot slots ih =>
    refine ((haccumulators row count (accs.headD 0)).append ((hslotRow row count slot.1 slot.2).append
      (ih (row + 1) (count - 1) accs.tail))).congr fun row' => ?_
    simp only [List.length_cons, false_or]
    omega

/-- Every byte of a key is copied into the row of its slot. -/
theorem mem_rowsLinks (c : Columns) (row : Nat) {slots : List (Slot × KeyBytes)} {i : Nat} {slot : Slot} {bytes : KeyBytes}
    (h : slots[i]? = some (slot, bytes)) : c.slotRowLinks (row + i) bytes ⊆ c.rowsLinks row slots := by
  induction slots generalizing row i with
  | nil => cases h
  | cons first slots ih =>
    cases i with
    | zero =>
      obtain rfl := Option.some.inj h
      exact List.subset_append_left _ _
    | succ i =>
      have hrow : row + (i + 1) = row + 1 + i := by omega
      rw [hrow]
      exact List.subset_append_of_subset_right _ (ih (row + 1) h)

/-- Byte `n` of either coordinate is copied into its column. -/
theorem mem_slotRowLinks (c : Columns) (row : Nat) {bytes : KeyBytes} {n : Nat} (hn : n < 32) {x y : AssignedCell}
    (hx : bytes.x[n]? = some x) (hy : bytes.y[n]? = some y) :
    (x.cell, c.x[n], row) ∈ c.slotRowLinks row bytes ∧ (y.cell, c.y[n], row) ∈ c.slotRowLinks row bytes := by
  have hpair : ((c.x[n], c.y[n]), x, y) ∈ c.coordinatePairs bytes := by
    refine List.mem_iff_getElem?.mpr ⟨n, ?_⟩
    simp [coordinatePairs, List.getElem?_zip_eq_some, hx, hy, hn]
  constructor
  · exact List.mem_flatMap.mpr ⟨_, hpair, List.mem_cons_self⟩
  · exact List.mem_flatMap.mpr ⟨_, hpair, List.mem_cons_of_mem _ List.mem_cons_self⟩

/-- Only bytes of keys are copied, and only into the columns of the coordinates. -/
theorem rowsLinks_columns {row : Nat} {slots : List (Slot × KeyBytes)} {x : Cell × Column × Nat}
    (h : x ∈ c.rowsLinks row slots) :
    (∃ slot ∈ slots, ∃ byte ∈ slot.2.x ++ slot.2.y, x.1 = byte.cell) ∧ x.2.1 ∈ c.coordinates.toList := by
  induction slots generalizing row with
  | nil => cases h
  | cons slot slots ih =>
    rcases List.mem_append.mp h with h | h
    · obtain ⟨pair, hpair, hlink⟩ := List.mem_flatMap.mp h
      obtain ⟨hcolumns, hbytes⟩ := List.of_mem_zip hpair
      simp only [List.mem_cons, List.not_mem_nil, or_false] at hlink
      rcases hlink with rfl | rfl
      · exact ⟨⟨slot, List.mem_cons_self, _, List.mem_append_left _ (List.of_mem_zip hbytes).1, rfl⟩,
          c.x_subset (List.of_mem_zip hcolumns).1⟩
      · exact ⟨⟨slot, List.mem_cons_self, _, List.mem_append_right _ (List.of_mem_zip hbytes).2, rfl⟩,
          c.y_subset (List.of_mem_zip hcolumns).2⟩
    · obtain ⟨⟨other, hmem, hbyte⟩, hcolumn⟩ := ih h
      exact ⟨⟨other, List.mem_cons_of_mem _ hmem, hbyte⟩, hcolumn⟩

end

end Columns

/-! ## The whole bridge -/

/-- Slots are made for signatures that go with the consumed keys; there are always as many as the circuit has. -/
theorem Slot.length_ofSignatures {signatures : List SignedKey} {keys : List ConsumedKey} {slots : List Slot}
    (h : Slot.ofSignatures signatures keys = .ok slots) :
    slots.length = maxSignatures ∧ signatures.length ≤ maxSignatures := by
  unfold Slot.ofSignatures at h
  by_cases hmany : signatures.length > maxSignatures
  · rw [if_pos hmany] at h
    cases h
  · rw [if_neg hmany] at h
    by_cases hcount : signatures.length ≠ keys.length
    · rw [if_pos hcount] at h
      cases h
    · rw [if_neg hcount] at h
      obtain ⟨_, -, h⟩ := except_bind_eq_ok.mp h
      obtain ⟨padding, -, h⟩ := except_bind_eq_ok.mp h
      cases h
      simp only [List.length_append, List.length_reverse, List.length_map, List.length_zip, List.length_replicate]
      omega

/-- The regions of the bridge are planned, with their heights, at given rows. -/
def Regions.Planned (regions : Regions) (l : Layouter) (verification range bridge : Nat) : Prop :=
  l.regions[regions.verification]? = some ⟨"ecdsa", verification, maxSignatures⟩ ∧
    l.regions[regions.range]? = some ⟨"public key range check", range, maxSignatures * Columns.slotRows⟩ ∧
    l.regions[regions.bridge]? = some ⟨"checksig bridge", bridge, maxSignatures + 1⟩

/-- The layouter once the bridge is planned. -/
def behindPlan (l : Layouter) : Layouter :=
  ((((l.behind "ecdsa" maxSignatures).behind "public key range check" (maxSignatures * Columns.slotRows)).behind
    "checksig bridge" (maxSignatures + 1)).withTable ParityTable.size).withTable ByteRange.tableSize

/-- The three regions of the bridge are planned before allocation, one behind the other. -/
theorem ends_plan {l l' : Layouter} {regions : Regions} :
    Columns.plan.Ends l regions l' ↔ l.witness? = none ∧
      regions = ⟨l.regions.length, l.regions.length + 1, l.regions.length + 2⟩ ∧ l' = behindPlan l := by
  have hlength : ∀ (l : Layouter) name height, (l.behind name height).regions.length = l.regions.length + 1 := fun l _ _ =>
    List.length_append
  have hbody : Columns.plan = Synthesis.planRegion "ecdsa" maxSignatures >>= fun verification =>
      Synthesis.planRegion "public key range check" (maxSignatures * Columns.slotRows) >>= fun range =>
      Synthesis.planRegion "checksig bridge" (maxSignatures + 1) >>= fun bridge =>
      Synthesis.planTable ParityTable.name ParityTable.size >>= fun _ =>
      Synthesis.planTable ByteRange.tableName ByteRange.tableSize >>= fun _ => pure ⟨verification, range, bridge⟩ := rfl
  rw [hbody, Synthesis.ends_bind_of_and fun _ _ => Synthesis.ends_planRegion, and_congr_right_iff]
  intro hnone
  rw [Synthesis.ends_planRegion_bind, Synthesis.ends_planRegion_bind, Synthesis.ends_planTable_bind,
    Synthesis.ends_planTable_bind, Synthesis.ends_pure, hlength, hlength, hlength]
  · rfl
  all_goals exact hnone

namespace Columns

/-- The cells of the tables of the bridge. -/
def tableCells (c : Columns) : List (Column × Nat × Felt) :=
  c.parity.cells ++ c.range.tableCells

/-- The cells of the parity table lie in its columns and rows. -/
theorem tableCells_bounds {c : Columns} {x : Column × Nat × Felt} (h : x ∈ c.tableCells) :
    x.1 ∈ c.tableColumns ∧ x.2.1 < ParityTable.size := by
  rcases List.mem_append.mp h with h | h
  · obtain ⟨⟨⟨form, byte⟩, row⟩, hzip, hx⟩ := List.mem_flatMap.mp h
    have hrow : row < ParityTable.size := by
      rw [← ParityTable.length_rows]
      exact (List.getElem?_eq_some_iff.mp (List.mem_zipIdx_iff_getElem?.mp hzip)).1
    simp only [List.mem_cons, List.not_mem_nil, or_false] at hx
    rcases hx with rfl | rfl
    · exact ⟨by simp [tableColumns], hrow⟩
    · exact ⟨by simp [tableColumns], hrow⟩
  · obtain ⟨row, hrow, rfl⟩ := List.mem_map.mp h
    exact ⟨by simp [tableColumns], Nat.lt_trans (List.mem_range.mp hrow) (by decide)⟩

/-- The tables are written into a matrix that has their columns and rows. -/
theorem ends_load {c : Columns} {l l' : Layouter} {m : Matrix} {copies : List Copy} {u : Unit}
    (hcolumns : ∀ column ∈ c.tableColumns, m.HasColumn column) (hplanned : ParityTable.size ≤ l.tableRows)
    (hrows : ParityTable.size ≤ m.rows) :
    c.load.Ends (l.withWitness ⟨m, copies⟩) u l' ↔ l' = l.withWitness ⟨m.writeAll c.tableCells, copies⟩ := by
  have hcells : ∀ x ∈ c.tableCells, x.2.1 < l.tableRows ∧ x.2.1 < m.rows ∧ m.HasColumn x.1 := by
    intro x hx
    obtain ⟨hcolumn, hrow⟩ := tableCells_bounds hx
    exact ⟨Nat.lt_of_lt_of_le hrow hplanned, Nat.lt_of_lt_of_le hrow hrows, hcolumns _ hcolumn⟩
  have hparity : ∀ x ∈ c.parity.cells, x.2.1 < l.tableRows ∧ x.2.1 < m.rows ∧ m.HasColumn x.1 := fun x hx =>
    hcells x (List.mem_append_left _ hx)
  have hrange : ∀ x ∈ c.range.tableCells, x.2.1 < l.tableRows ∧ x.2.1 < (m.writeAll c.parity.cells).rows ∧
      (m.writeAll c.parity.cells).HasColumn x.1 := by
    intro x hx
    rw [Matrix.rows_writeAll, Matrix.hasColumn_writeAll]
    exact hcells x (List.mem_append_right _ hx)
  have hload : c.load = Synthesis.fillTable ParityTable.name c.parity.cells >>= fun _ =>
      Synthesis.fillTable ByteRange.tableName c.range.tableCells := rfl
  rw [hload, Synthesis.ends_fillTable_bind hparity, Synthesis.ends_fillTable, and_iff_right hrange, tableCells,
    Matrix.writeAll_append]

/-- The accumulators of the bridge rows. -/
def accumulators (r : Felt) (slots : List Slot) (count : Nat) : List Felt :=
  foldKeys r ((slots.take count).map (·.combination r))

section

variable (c : Columns) (verification range bridge : Nat) (r : Felt) (slots : List Slot) (count : Nat)

/-- The slots with the cells of the bytes of their keys. -/
def slotsWithBytes : List (Slot × KeyBytes) :=
  slots.zip ((slots.zipIdx 0).map (c.slotBytes verification range))

/-- The cells of a bridge whose three regions start at given rows. -/
def bridgeCells : List (Column × Nat × Felt) :=
  (slots.zipIdx 0).flatMap (c.slotCells verification range) ++
    placed bridge (c.rowsCells r 0 count (c.slotsWithBytes verification range slots) (accumulators r slots count))

/-- The copy constraints of a bridge whose three regions start at given rows. -/
def bridgeCopies : List Copy :=
  (slots.zipIdx 0).flatMap (c.slotCopies verification range) ++
    linked bridge (c.rowsLinks 0 (c.slotsWithBytes verification range slots))

end

/-- Every slot gets its bytes. -/
theorem length_slotsWithBytes (c : Columns) (verification range : Nat) (slots : List Slot) :
    (c.slotsWithBytes verification range slots).length = slots.length := by
  rw [slotsWithBytes, List.length_zip, List.length_map, List.length_zipIdx, Nat.min_self]

variable {c : Columns} {sys : System} (hc : c.Proper sys)
include hc

/-- The columns of the copy constraints of the bridge rows take part in copy constraints. -/
theorem Proper.links_rows {verification range row : Nat} {slots : List Slot} :
    ∀ x ∈ c.rowsLinks row (c.slotsWithBytes verification range slots), sys.Links x.1.column x.2.1 := by
  intro x hx
  obtain ⟨⟨⟨slot, bytes⟩, hmem, byte, hbyte, hcell⟩, hcolumn⟩ := rowsLinks_columns hx
  obtain ⟨⟨other, i⟩, -, rfl⟩ := List.mem_map.mp (List.of_mem_zip hmem).2
  have hbytes : byte.cell.column = c.range.byte := by
    rcases List.mem_append.mp hbyte with h | h
    · exact ByteRange.column_limbBytes h
    · exact ByteRange.column_limbBytes h
  rw [hcell, hbytes]
  exact ⟨hc.linked _ (by simp [linkedColumns]),
    hc.linked _ (by simp [linkedColumns, Vector.mem_toList_iff.mp hcolumn])⟩

/-- The bridge rows of all slots are written into a region that has them. -/
theorem Proper.ends_assignRows {l l' : Layouter} {m : Matrix} {copies : List Copy} (hcolumns : c.InMatrix m) {b : Region}
    (hb : b.Inside m) {slots : List Slot} (hheight : slots.length < b.height) {r : Felt} {count verification range : Nat}
    {accs : List Felt} {x : Unit × Region} :
    (Synthesis.fill b (c.assignRows sys r 0 count (c.slotsWithBytes verification range slots) accs)).Ends
        (l.withWitness ⟨m, copies⟩) x l' ↔
      x = ((), { b with
        copies := b.copies ++ ScriptCircuit.linked b.start (c.rowsLinks 0 (c.slotsWithBytes verification range slots)) }) ∧
        l' = l.withWitness
          ⟨m.writeAll (placed b.start (c.rowsCells r 0 count (c.slotsWithBytes verification range slots) accs)), copies⟩ := by
  have hfits : ∀ x ∈ c.rowsCells r 0 count (c.slotsWithBytes verification range slots) accs,
      Filling.Fits ⟨b, m⟩ x.1 x.2.1 := by
    intro x hx
    obtain ⟨hcolumn, -, hrow⟩ := rowsCells_bounds hx
    rw [length_slotsWithBytes, Nat.zero_add] at hrow
    refine hb.fits (hcolumns _ ?_) (Nat.lt_of_le_of_lt hrow hheight)
    rcases hcolumn with hadvice | ⟨hmark | hmark, -⟩
    · exact List.mem_append_left _ hadvice
    · rw [hmark]
      simp [markColumns]
    · rw [hmark]
      simp [markColumns]
  exact Synthesis.ends_fill_does (hc.does_assignRows r 0 count _ accs) hfits hc.links_rows

/-- The synthesis of the bridge ends well exactly when the signatures go with the keys and every slot verifies. -/
theorem Proper.ends_assign {l l' : Layouter} {m : Matrix} {copies : List Copy} {regions : Regions}
    {verification range bridge : Nat} (hplanned : regions.Planned l verification range bridge) (hcolumns : c.InMatrix m)
    (hv : verification + maxSignatures ≤ m.rows) (hr : range + maxSignatures * slotRows ≤ m.rows)
    (hb : bridge + (maxSignatures + 1) ≤ m.rows) (hsize : m.rows ≤ UInt64.size) {r : Felt} {signatures : List SignedKey}
    {keys : List ConsumedKey} {cells : Cells} :
    (c.assign sys regions r signatures keys).Ends (l.withWitness ⟨m, copies⟩) cells l' ↔
      ∃ slots, Slot.ofSignatures signatures keys = .ok slots ∧ (∀ slot ∈ slots, slot.Verifies) ∧
        cells = c.cells bridge r ((accumulators r slots signatures.length).headD 0) signatures.length ∧
        l' = l.withWitness ⟨m.writeAll (c.bridgeCells verification range bridge r slots signatures.length),
          copies ++ c.bridgeCopies verification range bridge slots⟩ := by
  obtain ⟨hverification, hrange, hbridge⟩ := hplanned
  let v : Region := ⟨"ecdsa", verification, maxSignatures, []⟩
  let g : Region := ⟨"public key range check", range, maxSignatures * slotRows, []⟩
  let b : Region := ⟨"checksig bridge", bridge, maxSignatures + 1, []⟩
  have hv' : v.Inside m := ⟨hv, hsize⟩
  have hg' : g.Inside m := ⟨hr, hsize⟩
  have hb' : ∀ cells, b.Inside (m.writeAll cells) := fun cells => Region.Inside.writeAll ⟨hb, hsize⟩ cells
  have hslots : ∀ {slots : List Slot}, slots.length = maxSignatures → ∀ {out l'},
      (c.assignSlots sys 0 v g slots).Ends (l.withWitness ⟨m, copies⟩) out l' ↔ _ := fun hlength =>
    hc.ends_assignSlots hcolumns hv' hg' (by rw [Nat.zero_add, hlength]) (by rw [Nat.zero_add, hlength])
  have hrows : ∀ {slots : List Slot}, slots.length = maxSignatures → slots.length < b.height := fun hlength => by
    rw [hlength]
    exact Nat.lt_succ_self _
  have hbody : c.assign sys regions r signatures keys =
      liftM (Slot.ofSignatures signatures keys) >>= fun slots =>
      Synthesis.region regions.verification >>= fun v => Synthesis.region regions.range >>= fun g =>
      c.assignSlots sys 0 v g slots >>= fun x => Synthesis.region regions.bridge >>= fun b =>
      Synthesis.fill b (c.assignRows sys r 0 signatures.length (slots.zip x.1)
        (accumulators r slots signatures.length)) >>= fun y =>
      Synthesis.commit sys x.2.1 >>= fun _ => Synthesis.commit sys x.2.2 >>= fun _ => Synthesis.commit sys y.2 >>= fun _ =>
      pure (c.cells y.2.start r ((accumulators r slots signatures.length).headD 0) signatures.length) := rfl
  rw [hbody, Synthesis.ends_lift_bind]
  refine exists_congr fun slots => and_congr_right fun hslot => ?_
  obtain ⟨hlength, -⟩ := Slot.length_ofSignatures hslot
  have hcopies : ∀ copy ∈ (slots.zipIdx 0).flatMap (c.slotCopies verification range),
      sys.Links copy.left.column copy.right.column := by
    intro copy hcopy
    obtain ⟨slot, -, hmem⟩ := List.mem_flatMap.mp hcopy
    exact System.links_linked hc.links_key range copy hmem
  rw [Synthesis.ends_region_bind hverification, Synthesis.ends_region_bind hrange,
    Synthesis.ends_bind_of_and fun _ _ => hslots hlength, Synthesis.ends_region_bind hbridge]
  refine and_congr_right fun _ => ?_
  refine (Synthesis.ends_bind_of fun _ _ => hc.ends_assignRows (hcolumns.writeAll _) (hb' _) (hrows hlength)).trans ?_
  have hnone : ∀ copy ∈ v.copies, sys.Links copy.left.column copy.right.column := nofun
  refine (Synthesis.ends_commit_bind hnone).trans ?_
  rw [Synthesis.ends_commit_bind hcopies, Synthesis.ends_commit_bind (System.links_linked hc.links_rows bridge),
    Synthesis.ends_pure, bridgeCells, Matrix.writeAll_append, bridgeCopies, accumulators]
  simp only [List.append_nil, List.append_assoc, List.nil_append, v, g, b]

end Columns

end Bridge

end ScriptCircuit
