import Mathlib
import ScriptCircuit.Circuit
import ScriptCircuit.Proofs.Bytes.Word
import ScriptCircuit.Proofs.Plonk.ByteRange
import ScriptCircuit.Proofs.Plonk.Synthesis

/-!
# What a slot of the signature bridge writes

The row of a verified signature with the limbs of its key, and the decompositions of these limbs into bytes. A slot whose
signature does not verify is refused.
-/

namespace ScriptCircuit

/-! ## Limbs in cells -/

namespace AssignedCell

/-- Cells hold the limbs of a word, the least significant one first. -/
def HoldLimbs (cells : List AssignedCell) (w : Word) : Prop :=
  cells.map (·.value) = w.limbs.toList.map .ofNat

variable {cells : List AssignedCell} {w : Word} (h : HoldLimbs cells w)
include h

/-- A word has eight limbs. -/
theorem HoldLimbs.length_eq : cells.length = 8 := by
  have hlength := congrArg List.length h
  rwa [List.length_map, List.length_map, Vector.length_toList] at hlength

/-- Limbs are not wrapped in the field. -/
theorem HoldLimbs.map_toNat : cells.map (·.value.toNat) = w.limbs.toList := by
  have hmap : cells.map (·.value.toNat) = (cells.map (·.value)).map Felt.toNat := by
    rw [List.map_map]
    rfl
  rw [hmap, h, List.map_map]
  refine (List.map_congr_left fun limb hlimb => ?_).trans (List.map_id _)
  have hlt := w.lt_of_mem_limbs (Vector.mem_toList_iff.mp hlimb)
  exact Felt.toNat_natCast_of_lt (Nat.lt_trans hlt (by decide))

/-- Cells of limbs hold numbers of 32 bits. -/
theorem HoldLimbs.value_lt {cell : AssignedCell} (hcell : cell ∈ cells) : cell.value.toNat < 2 ^ 32 := by
  have hmem : cell.value.toNat ∈ w.limbs.toList := h.map_toNat ▸ List.mem_map_of_mem hcell
  exact w.lt_of_mem_limbs (Vector.mem_toList_iff.mp hmem)

end AssignedCell

/-! ## Verified signatures -/

namespace Verification

/-- The cells of the limbs of a word, by offsets. -/
def limbCells (block : Vector Column 8) (offset : Nat) (w : Word) : List (Column × Nat × Felt) :=
  (block.toList.zip w.limbs.toList).map fun (column, limb) => (column, offset, .ofNat limb)

/-- The cells of the limbs of a word, in a region that starts at a row. -/
def limbsAt (block : Vector Column 8) (start offset : Nat) (w : Word) : List AssignedCell :=
  (block.toList.zip w.limbs.toList).map fun (column, limb) => ⟨⟨column, rowAt start offset⟩, .ofNat limb⟩

/-- The cells of a verified signature. -/
def rowCells (v : Verification) (offset : Nat) (g : Signature) (key : PublicKey) : List (Column × Nat × Felt) :=
  (v.enable, offset, 1) :: (limbCells v.r offset g.r ++ (limbCells v.s offset g.s ++ (limbCells v.x offset key.x ++
    (limbCells v.y offset key.y ++ [(v.verified, offset, 1)]))))

/-- The advice columns. -/
def adviceColumns (v : Verification) : List Column :=
  v.r.toList ++ v.s.toList ++ v.x.toList ++ v.y.toList ++ [v.verified]

variable {v : Verification} {sys : System}

/-- Assigning a word writes its limbs. -/
theorem does_assignLimbs {block : Vector Column 8} (hkind : ∀ column ∈ block.toList, column.kind = .advice) (offset : Nat)
    (w : Word) : (assignLimbs block offset w).Does sys (limbCells block offset w) [] fun start =>
      limbsAt block start offset w := by
  have hcells : limbCells block offset w = (block.toList.zip w.limbs.toList).flatMap fun (column, limb) =>
      [(column, offset, .ofNat limb)] := by
    rw [limbCells, List.map_eq_flatMap]
  rw [hcells]
  exact Fill.does_mapM fun x hx => Fill.does_assignAdvice offset (.ofNat x.2) (hkind x.1 (List.of_mem_zip hx).1)

/-- A signature that verifies is written. -/
theorem does_assign (hkind : ∀ column ∈ v.adviceColumns, column.kind = .advice) (offset : Nat) {g : Signature}
    {key : PublicKey} {hash : Word} (h : g.verifies key hash = true) :
    (v.assign offset g key hash).Does sys (v.rowCells offset g key) [] fun start =>
      ⟨limbsAt v.x start offset key.x, limbsAt v.y start offset key.y⟩ := by
  simp only [adviceColumns, List.forall_mem_append] at hkind
  obtain ⟨⟨⟨⟨hr, hs⟩, hx⟩, hy⟩, hverified⟩ := hkind
  have hbody : v.assign offset g key hash = Fill.enable v.enable offset >>= fun _ =>
      discard (assignLimbs v.r offset g.r) >>= fun _ => discard (assignLimbs v.s offset g.s) >>= fun _ =>
      assignLimbs v.x offset key.x >>= fun x => assignLimbs v.y offset key.y >>= fun y =>
      discard (Fill.assignAdvice v.verified offset 1) >>= fun _ => pure { x, y } := by
    unfold assign
    rw [h]
    rfl
  have hone : (discard (Fill.assignAdvice v.verified offset 1) : Fill Unit).Does sys _ [] fun _ => () :=
    (Fill.does_assignAdvice offset 1 (hverified _ (List.mem_singleton.mpr rfl))).discard
  have hlast : ∀ x y : List AssignedCell, (discard (Fill.assignAdvice v.verified offset 1) >>= fun _ =>
      pure { x, y } : Fill KeyLimbs).Does sys [(v.verified, offset, 1)] [] fun _ => { x, y } := fun x y =>
    hone.andThen (Fill.does_pure _)
  have hkey := (does_assignLimbs hx offset key.x).bind fun x => (does_assignLimbs hy offset key.y).bind (hlast x)
  rw [hbody]
  exact (Fill.does_enable v.enable offset).andThen ((does_assignLimbs hr offset g.r).discard.andThen
    ((does_assignLimbs hs offset g.s).discard.andThen hkey))

/-- A signature that does not verify is refused. -/
theorem not_ends_assign {offset : Nat} {g : Signature} {key : PublicKey} {hash : Word} (h : g.verifies key hash = false)
    {s s' : Filling} {limbs : KeyLimbs} : ¬(v.assign offset g key hash).Ends s limbs s' := by
  unfold assign
  rw [h]
  nofun

/-- The cells of a verified signature lie in its row, in its advice columns or under its mark. -/
theorem rowCells_bounds {offset : Nat} {g : Signature} {key : PublicKey} {x : Column × Nat × Felt}
    (h : x ∈ v.rowCells offset g key) : (x.1 ∈ v.adviceColumns ∨ x.1 = v.enable ∧ x.2.2 = 1) ∧ x.2.1 = offset := by
  have hlimbs : ∀ {block : Vector Column 8} {w : Word}, x ∈ limbCells block offset w →
      x.1 ∈ block.toList ∧ x.2.1 = offset := by
    intro block w hx
    obtain ⟨⟨column, limb⟩, hzip, rfl⟩ := List.mem_map.mp hx
    exact ⟨(List.of_mem_zip hzip).1, rfl⟩
  simp only [rowCells, List.mem_cons, List.mem_append, List.not_mem_nil, or_false] at h
  simp only [adviceColumns, List.mem_append, List.mem_singleton]
  rcases h with rfl | h | h | h | h | rfl
  · exact ⟨.inr ⟨rfl, rfl⟩, rfl⟩
  · exact ⟨.inl (.inl (.inl (.inl (.inl (hlimbs h).1)))), (hlimbs h).2⟩
  · exact ⟨.inl (.inl (.inl (.inl (.inr (hlimbs h).1)))), (hlimbs h).2⟩
  · exact ⟨.inl (.inl (.inl (.inr (hlimbs h).1))), (hlimbs h).2⟩
  · exact ⟨.inl (.inl (.inr (hlimbs h).1)), (hlimbs h).2⟩
  · exact ⟨.inl (.inr rfl), rfl⟩

/-- A word has eight cells. -/
theorem length_limbsAt (block : Vector Column 8) (start offset : Nat) (w : Word) :
    (limbsAt block start offset w).length = 8 := by
  rw [limbsAt, List.length_map, List.length_zip, Vector.length_toList, Vector.length_toList, Nat.min_self]

/-- The cell of a limb. -/
theorem getElem?_limbsAt (block : Vector Column 8) (start offset : Nat) (w : Word) {k : Nat} (hk : k < 8) :
    (limbsAt block start offset w)[k]? = some ⟨⟨block[k], rowAt start offset⟩, .ofNat (w.limb k)⟩ := by
  simp [limbsAt, Word.limbs, hk]

/-- The cells of the limbs of a word hold them. -/
theorem holdLimbs_limbsAt (block : Vector Column 8) (start offset : Nat) (w : Word) :
    AssignedCell.HoldLimbs (limbsAt block start offset w) w := by
  have hlimbs : (block.toList.zip w.limbs.toList).map Prod.snd = w.limbs.toList :=
    List.map_snd_zip (by rw [Vector.length_toList, Vector.length_toList])
  have hvalues : (limbsAt block start offset w).map (·.value) = ((block.toList.zip w.limbs.toList).map Prod.snd).map .ofNat := by
    rw [limbsAt, List.map_map, List.map_map]
    rfl
  rw [AssignedCell.HoldLimbs, hvalues, hlimbs]

end Verification

/-! ## Decompositions of limbs -/

namespace ByteRange

/-- The cells of the decompositions of limbs, one behind the other. -/
def limbCells (b : ByteRange) (offset : Nat) : List AssignedCell → List (Column × Nat × Felt)
  | [] => []
  | limb :: rest => b.sumCells offset limb 32 ++ limbCells b (offset + Bridge.Columns.limbRows) rest

/-- The copy constraints of these decompositions. -/
def limbLinks (b : ByteRange) (offset : Nat) : List AssignedCell → List (Cell × Column × Nat)
  | [] => []
  | limb :: rest => (limb.cell, b.runningSum, offset) :: limbLinks b (offset + Bridge.Columns.limbRows) rest

/-- The byte cells of these decompositions, in a region that starts at a row. -/
def limbBytes (b : ByteRange) (start offset : Nat) : List AssignedCell → List AssignedCell
  | [] => []
  | limb :: rest =>
    b.bytesFrom start offset limb.value.toNat 4 ++ limbBytes b start (offset + Bridge.Columns.limbRows) rest

variable {b : ByteRange}

/-- Decomposing a limb writes four bytes and copies the limb. -/
theorem Proper.does_decomposeLimb (hb : b.Proper) {sys : System} (offset : Nat) {limb : AssignedCell}
    (h : limb.value.toNat < 2 ^ 32) :
    (b.decompose sys offset limb 8 32).Does sys (b.sumCells offset limb 32) [(limb.cell, b.runningSum, offset)]
      fun start => b.bytesFrom start offset limb.value.toNat 4 := by
  have hfits : limb.value.toNat >>> 32 = 0 := by
    rw [Nat.shiftRight_eq_div_pow]
    exact Nat.div_eq_of_lt h
  exact hb.does_decompose offset limb (by decide) hfits

/-- What is listed limb by limb, each some rows behind the one before, is listed for one of the limbs. -/
theorem mem_limbs_iff {α : Type} (all : Nat → List AssignedCell → List α) (single : Nat → AssignedCell → List α)
    (hnil : ∀ offset, all offset [] = [])
    (hcons : ∀ offset limb rest, all offset (limb :: rest) = single offset limb ++ all (offset + Bridge.Columns.limbRows) rest)
    {offset : Nat} {limbs : List AssignedCell} {x : α} :
    x ∈ all offset limbs ↔
      ∃ k limb, limbs[k]? = some limb ∧ x ∈ single (offset + k * Bridge.Columns.limbRows) limb := by
  induction limbs generalizing offset with
  | nil =>
    rw [hnil]
    exact iff_of_false List.not_mem_nil fun ⟨_, _, hlimb, _⟩ => nomatch hlimb
  | cons first limbs ih =>
    have hrow : ∀ k, offset + Bridge.Columns.limbRows + k * Bridge.Columns.limbRows =
        offset + (k + 1) * Bridge.Columns.limbRows := by
      intro k
      rw [Nat.succ_mul]
      omega
    rw [hcons, List.mem_append, ih]
    simp only [hrow]
    constructor
    · rintro (h | ⟨k, limb, hlimb, h⟩)
      · exact ⟨0, first, rfl, by rwa [Nat.zero_mul]⟩
      · exact ⟨k + 1, limb, hlimb, h⟩
    · rintro ⟨k, limb, hlimb, h⟩
      cases k with
      | zero =>
        obtain rfl := Option.some.inj hlimb
        rw [Nat.zero_mul] at h
        exact .inl h
      | succ k => exact .inr ⟨k, limb, hlimb, h⟩

/-- The cells of limbs are those of the limbs' decompositions. -/
theorem mem_limbCells {offset : Nat} {limbs : List AssignedCell} {x : Column × Nat × Felt} :
    x ∈ b.limbCells offset limbs ↔
      ∃ k limb, limbs[k]? = some limb ∧ x ∈ b.sumCells (offset + k * Bridge.Columns.limbRows) limb 32 :=
  mem_limbs_iff b.limbCells (fun offset limb => b.sumCells offset limb 32) (fun _ => rfl) fun _ _ _ => rfl

/-- Every limb is copied to the running sum of its first row, and nothing else is copied. -/
theorem mem_limbLinks {offset : Nat} {limbs : List AssignedCell} {x : Cell × Column × Nat} :
    x ∈ b.limbLinks offset limbs ↔
      ∃ k limb, limbs[k]? = some limb ∧ x = (limb.cell, b.runningSum, offset + k * Bridge.Columns.limbRows) := by
  rw [mem_limbs_iff b.limbLinks (fun offset limb => [(limb.cell, b.runningSum, offset)]) (fun _ => rfl) fun _ _ _ => rfl]
  simp only [List.mem_singleton]

/-- The byte cells of limbs are those of the limbs. -/
theorem mem_limbBytes {start offset : Nat} {limbs : List AssignedCell} {byte : AssignedCell} :
    byte ∈ b.limbBytes start offset limbs ↔ ∃ k limb, limbs[k]? = some limb ∧
      byte ∈ b.bytesFrom start (offset + k * Bridge.Columns.limbRows) limb.value.toNat 4 :=
  mem_limbs_iff (b.limbBytes start) (fun offset limb => b.bytesFrom start offset limb.value.toNat 4) (fun _ => rfl)
    fun _ _ _ => rfl

/-- The decompositions of limbs lie in their columns and rows. -/
theorem limbCells_bounds {offset : Nat} {limbs : List AssignedCell} {x : Column × Nat × Felt}
    (h : x ∈ b.limbCells offset limbs) : b.Writes x ∧ offset ≤ x.2.1 ∧
      x.2.1 < offset + limbs.length * Bridge.Columns.limbRows := by
  obtain ⟨k, limb, hlimb, h⟩ := mem_limbCells.mp h
  obtain ⟨hcolumn, hlow, hhigh⟩ := sumCells_bounds h
  have hlt : k < limbs.length := (List.getElem?_eq_some_iff.mp hlimb).1
  have hrows : (k + 1) * Bridge.Columns.limbRows ≤ limbs.length * Bridge.Columns.limbRows := Nat.mul_le_mul_right _ hlt
  have hlimbRow : x.2.1 < offset + k * Bridge.Columns.limbRows + Bridge.Columns.limbRows := Nat.lt_succ_of_le hhigh
  rw [Nat.succ_mul] at hrows
  exact ⟨hcolumn, by omega, by omega⟩

/-- The rows of some limbs that are decomposed from a row on, at the places within a limb that are asked for. -/
def AtPlace (P : Nat → Prop) (offset limbs row : Nat) : Prop :=
  offset ≤ row ∧ row < offset + limbs * Bridge.Columns.limbRows ∧ P ((row - offset) % Bridge.Columns.limbRows)

/-- The rows of the bytes of some limbs that are decomposed from a row on. -/
abbrev AtByte : Nat → Nat → Nat → Prop := AtPlace (· < 4)

/-- The rows behind the bytes of some limbs that are decomposed from a row on. -/
abbrev AtEnd : Nat → Nat → Nat → Prop := AtPlace (· = 4)

instance {P : Nat → Prop} [DecidablePred P] (offset limbs row : Nat) : Decidable (AtPlace P offset limbs row) :=
  inferInstanceAs (Decidable (_ ∧ _ ∧ _))

/-- Limbs are decomposed one behind the other. -/
theorem atPlace_add (P : Nat → Prop) (offset limbs limbs' row : Nat) : AtPlace P offset (limbs + limbs') row ↔
    AtPlace P offset limbs row ∨ AtPlace P (offset + limbs * Bridge.Columns.limbRows) limbs' row := by
  simp only [AtPlace, Bridge.Columns.limbRows, rowsFor]
  have hplace : offset + limbs * 5 ≤ row → (row - (offset + limbs * 5)) % 5 = (row - offset) % 5 := by omega
  constructor
  · rintro ⟨hlow, hhigh, hP⟩
    by_cases hrow : row < offset + limbs * 5
    · exact .inl ⟨hlow, hrow, hP⟩
    · exact .inr ⟨by omega, by omega, (hplace (by omega)).symm ▸ hP⟩
  · rintro (⟨hlow, hhigh, hP⟩ | ⟨hlow, hhigh, hP⟩)
    · exact ⟨hlow, by omega, hP⟩
    · exact ⟨by omega, by omega, hplace hlow ▸ hP⟩

/-- What is marked in the decomposition of every limb is marked in those of all limbs. -/
theorem marks_limbs {mark : Column} {P : Nat → Prop}
    (hlimb : ∀ offset limb, Marks (b.sumCells offset limb 32) mark (AtPlace P offset 1)) (offset : Nat)
    (limbs : List AssignedCell) : Marks (b.limbCells offset limbs) mark (AtPlace P offset limbs.length) := by
  induction limbs generalizing offset with
  | nil =>
    refine (Marks.of_forall_ne fun _ hx => absurd hx List.not_mem_nil).congr fun row => iff_of_false not_false ?_
    rintro ⟨hlow, hhigh, -⟩
    rw [List.length_nil, Nat.zero_mul] at hhigh
    exact absurd hhigh (Nat.not_lt.mpr hlow)
  | cons limb limbs ih =>
    refine ((hlimb offset limb).append (ih (offset + Bridge.Columns.limbRows))).congr fun row => ?_
    rw [List.length_cons, Nat.add_comm limbs.length, atPlace_add, Nat.one_mul]

/-- The recurrence is switched on for the bytes of a limb. -/
theorem marks_limbStep (hne : b.step ∉ [b.runningSum, b.byte, b.stop]) (offset : Nat) (limb : AssignedCell) :
    Marks (b.sumCells offset limb 32) b.step (AtByte offset 1) := by
  refine (marks_sumStep hne offset limb 32).congr fun row => ?_
  simp only [AtPlace, Bridge.Columns.limbRows, rowsFor]
  omega

/-- The end is switched on behind the bytes of a limb. -/
theorem marks_limbStop (hne : b.stop ∉ [b.runningSum, b.byte, b.step]) (offset : Nat) (limb : AssignedCell) :
    Marks (b.sumCells offset limb 32) b.stop (AtEnd offset 1) := by
  refine (marks_sumStop hne offset limb 32).congr fun row => ?_
  simp only [AtPlace, Bridge.Columns.limbRows, rowsFor]
  omega

/-- A limb has four bytes. -/
theorem length_limbBytes (b : ByteRange) (start offset : Nat) (limbs : List AssignedCell) :
    (b.limbBytes start offset limbs).length = limbs.length * 4 := by
  induction limbs generalizing offset with
  | nil => rfl
  | cons limb limbs ih => rw [limbBytes, List.length_append, length_bytesFrom, ih, List.length_cons, Nat.succ_mul, Nat.add_comm]

/-- The byte cells of limbs stand in the column of the bytes. -/
theorem column_limbBytes {start offset : Nat} {limbs : List AssignedCell} {byte : AssignedCell}
    (h : byte ∈ b.limbBytes start offset limbs) : byte.cell.column = b.byte := by
  obtain ⟨k, limb, -, h⟩ := mem_limbBytes.mp h
  obtain ⟨i, hi⟩ := List.mem_iff_getElem?.mp h
  have hlt : i < 4 := by
    rw [← b.length_bytesFrom start (offset + k * Bridge.Columns.limbRows) limb.value.toNat 4]
    exact (List.getElem?_eq_some_iff.mp hi).1
  obtain ⟨x, hx⟩ := b.cell_bytesFrom start (offset + k * Bridge.Columns.limbRows) limb.value.toNat hlt
  obtain rfl := Option.some.inj (hi.symm.trans hx)
  rfl

/-- The cell of byte `j` of limb `k`. -/
theorem cell_limbBytes (b : ByteRange) (start offset : Nat) {limbs : List AssignedCell} {k j : Nat} (hk : k < limbs.length)
    (hj : j < 4) : ∃ x, (b.limbBytes start offset limbs)[k * 4 + j]? =
      some ⟨⟨b.byte, rowAt start (offset + k * Bridge.Columns.limbRows + j)⟩, x⟩ := by
  induction limbs generalizing offset k with
  | nil => cases hk
  | cons limb limbs ih =>
    have hlength := b.length_bytesFrom start offset limb.value.toNat 4
    cases k with
    | zero =>
      obtain ⟨x, hx⟩ := b.cell_bytesFrom start offset limb.value.toNat hj
      refine ⟨x, ?_⟩
      rw [limbBytes, Nat.zero_mul, Nat.zero_mul, Nat.zero_add, Nat.add_zero, List.getElem?_append_left (by omega), hx]
    | succ k =>
      obtain ⟨x, hx⟩ := ih (offset + Bridge.Columns.limbRows) (Nat.lt_of_succ_lt_succ hk)
      have hindex : (k + 1) * 4 + j - (b.bytesFrom start offset limb.value.toNat 4).length = k * 4 + j := by omega
      have hrow : offset + (k + 1) * Bridge.Columns.limbRows =
          offset + Bridge.Columns.limbRows + k * Bridge.Columns.limbRows := by
        rw [Nat.succ_mul]
        omega
      refine ⟨x, ?_⟩
      rw [limbBytes, List.getElem?_append_right (by omega), hindex, hx, hrow]

end ByteRange

namespace Bridge.Columns

/-! ## Columns -/

/-- The advice columns: those of the verification, of the decomposition and of the bridge rows. -/
def adviceColumns (c : Columns) : List Column :=
  c.verification.adviceColumns ++ ([c.range.runningSum, c.range.byte] ++ ([c.challenge, c.checks, c.checksInverse, c.keyAcc,
    c.keyCombination, c.form] ++ c.powers.toList ++ c.coordinates.toList))

/-- The fixed columns that mark rows. -/
def markColumns (c : Columns) : List Column :=
  [c.verification.enable, c.range.step, c.range.stop, c.isSlot, c.isEnd]

/-- The fixed columns of the tables. -/
def tableColumns (c : Columns) : List Column :=
  [c.range.table, c.parity.form, c.parity.byte]

/-- The columns that take part in copy constraints. -/
def linkedColumns (c : Columns) : List Column :=
  c.verification.x.toList ++ c.verification.y.toList ++ [c.range.runningSum, c.range.byte, c.challenge, c.checks, c.keyAcc] ++
    c.coordinates.toList

/-- The columns are distinct columns of a system, of the kinds their use asks for. -/
structure Proper (c : Columns) (sys : System) : Prop where
  advice_kind : ∀ column ∈ c.adviceColumns, column.kind = .advice ∧ column.index < sys.adviceCount
  advice_nodup : c.adviceColumns.Nodup
  fixed_kind : ∀ column ∈ c.markColumns ++ c.tableColumns, column.kind = .fixed ∧ column.index < sys.fixedCount
  fixed_nodup : (c.markColumns ++ c.tableColumns).Nodup
  linked : ∀ column ∈ c.linkedColumns, sys.equalityEnabled column = true

/-! ## The bytes of a key -/

/-- The cells of the decompositions of pairs of limbs. -/
def keyCells (c : Columns) (offset : Nat) : List (AssignedCell × AssignedCell) → List (Column × Nat × Felt)
  | [] => []
  | (x, y) :: rest =>
    c.range.sumCells offset x 32 ++ (c.range.sumCells (offset + 8 * limbRows) y 32 ++ keyCells c (offset + limbRows) rest)

/-- The copy constraints of these decompositions. -/
def keyLinks (c : Columns) (offset : Nat) : List (AssignedCell × AssignedCell) → List (Cell × Column × Nat)
  | [] => []
  | (x, y) :: rest =>
    (x.cell, c.range.runningSum, offset) :: (y.cell, c.range.runningSum, offset + 8 * limbRows) ::
      keyLinks c (offset + limbRows) rest

/-- The byte cells of these decompositions, in a region that starts at a row. -/
def keyBytes (c : Columns) (start offset : Nat) (limbs : List (AssignedCell × AssignedCell)) : KeyBytes where
  x := c.range.limbBytes start offset (limbs.map Prod.fst)
  y := c.range.limbBytes start (offset + 8 * limbRows) (limbs.map Prod.snd)

variable {c : Columns} {sys : System}

section

variable (hc : c.Proper sys)
include hc

/-- The columns of the decompositions are proper. -/
theorem Proper.range : c.range.Proper where
  sum_kind := (hc.advice_kind _ (by simp [adviceColumns])).1
  byte_kind := (hc.advice_kind _ (by simp [adviceColumns])).1

/-- The cells of a verified signature go to advice columns. -/
theorem Proper.verification_kind : ∀ column ∈ c.verification.adviceColumns, column.kind = .advice := fun column h =>
  (hc.advice_kind column (List.mem_append_left _ h)).1

/-- Decomposing the limbs of a key writes the bytes of both coordinates. -/
theorem Proper.does_assignBytes (offset : Nat) {limbs : List (AssignedCell × AssignedCell)}
    (h : ∀ pair ∈ limbs, pair.1.value.toNat < 2 ^ 32 ∧ pair.2.value.toNat < 2 ^ 32) :
    (c.assignBytes sys offset limbs).Does sys (c.keyCells offset limbs) (c.keyLinks offset limbs) fun start =>
      c.keyBytes start offset limbs := by
  induction limbs generalizing offset with
  | nil => exact Fill.does_pure _
  | cons pair limbs ih =>
    rw [List.forall_mem_cons] at h
    have hx : (c.range.decompose sys offset pair.1 8 32).Does sys _ _ _ := hc.range.does_decomposeLimb offset h.1.1
    have hy : (c.range.decompose sys (offset + 8 * limbRows) pair.2 8 32).Does sys _ _ _ :=
      hc.range.does_decomposeLimb (offset + 8 * limbRows) h.1.2
    have hrest := ih (offset + limbRows) h.2
    have hboth := hx.bind fun x => hy.bind fun y => hrest.map fun bytes => (⟨x ++ bytes.x, y ++ bytes.y⟩ : KeyBytes)
    have hbytes : ∀ start, c.keyBytes start offset (pair :: limbs) =
        ⟨c.range.bytesFrom start offset pair.1.value.toNat 4 ++ (c.keyBytes start (offset + limbRows) limbs).x,
          c.range.bytesFrom start (offset + 8 * limbRows) pair.2.value.toNat 4 ++
            (c.keyBytes start (offset + limbRows) limbs).y⟩ := by
      intro start
      simp only [keyBytes, List.map_cons, ByteRange.limbBytes, Nat.add_right_comm offset (8 * limbRows) limbRows]
    simp only [hbytes]
    exact hboth

end

/-- Both coordinates are decomposed limb by limb. -/
theorem mem_keyCells {offset : Nat} {limbs : List (AssignedCell × AssignedCell)} {x : Column × Nat × Felt} :
    x ∈ c.keyCells offset limbs ↔ x ∈ c.range.limbCells offset (limbs.map Prod.fst) ∨
      x ∈ c.range.limbCells (offset + 8 * limbRows) (limbs.map Prod.snd) := by
  induction limbs generalizing offset with
  | nil => simp [keyCells, ByteRange.limbCells]
  | cons pair limbs ih =>
    simp only [keyCells, List.map_cons, ByteRange.limbCells, List.mem_append, ih, Nat.add_right_comm offset]
    tauto

/-- The limbs of both coordinates are copied. -/
theorem mem_keyLinks {offset : Nat} {limbs : List (AssignedCell × AssignedCell)} {x : Cell × Column × Nat} :
    x ∈ c.keyLinks offset limbs ↔ x ∈ c.range.limbLinks offset (limbs.map Prod.fst) ∨
      x ∈ c.range.limbLinks (offset + 8 * limbRows) (limbs.map Prod.snd) := by
  induction limbs generalizing offset with
  | nil => simp [keyLinks, ByteRange.limbLinks]
  | cons pair limbs ih =>
    simp only [keyLinks, List.map_cons, ByteRange.limbLinks, List.mem_cons, ih, Nat.add_right_comm offset]
    tauto

/-- What is marked in the decomposition of every limb is marked in those of both coordinates. -/
theorem marks_key {mark : Column} {P : Nat → Prop}
    (hlimb : ∀ offset limb, Marks (c.range.sumCells offset limb 32) mark (ByteRange.AtPlace P offset 1)) (offset : Nat)
    {limbs : List (AssignedCell × AssignedCell)} (hlimbs : limbs.length = 8) :
    Marks (c.keyCells offset limbs) mark (ByteRange.AtPlace P offset 16) := by
  have hcells : ∀ row x, (mark, row, x) ∈ c.keyCells offset limbs ↔
      (mark, row, x) ∈ c.range.limbCells offset (limbs.map Prod.fst) ++
        c.range.limbCells (offset + 8 * limbRows) (limbs.map Prod.snd) := by
    intro row x
    rw [mem_keyCells, List.mem_append]
  have hlength : ∀ f : AssignedCell × AssignedCell → AssignedCell, (limbs.map f).length = 8 := fun f => by
    rw [List.length_map, hlimbs]
  refine Marks.of_mem_iff (((ByteRange.marks_limbs hlimb offset _).append
    (ByteRange.marks_limbs hlimb _ _)).congr fun row => ?_) hcells
  rw [hlength, hlength]
  exact (ByteRange.atPlace_add P offset 8 8 row).symm

/-- The decompositions of a key lie in the rows of its slot. -/
theorem keyCells_bounds {offset : Nat} {limbs : List (AssignedCell × AssignedCell)} (hlimbs : limbs.length = 8)
    {x : Column × Nat × Felt} (h : x ∈ c.keyCells offset limbs) :
    c.range.Writes x ∧ offset ≤ x.2.1 ∧ x.2.1 < offset + slotRows := by
  have hrows : slotRows = 8 * limbRows + 8 * limbRows := rfl
  rw [hrows]
  rcases mem_keyCells.mp h with h | h
  · obtain ⟨hcolumn, hlow, hhigh⟩ := ByteRange.limbCells_bounds h
    rw [List.length_map, hlimbs] at hhigh
    exact ⟨hcolumn, hlow, by omega⟩
  · obtain ⟨hcolumn, hlow, hhigh⟩ := ByteRange.limbCells_bounds h
    rw [List.length_map, hlimbs] at hhigh
    exact ⟨hcolumn, by omega, by omega⟩

/-- The cells of the limbs of a key, pair by pair, in a region that starts at a row. -/
def limbPairs (c : Columns) (start i : Nat) (key : PublicKey) : List (AssignedCell × AssignedCell) :=
  (Verification.limbsAt c.verification.x start i key.x).zip (Verification.limbsAt c.verification.y start i key.y)

section

variable (c : Columns) (start i : Nat) (key : PublicKey)

theorem length_limbPairs : (c.limbPairs start i key).length = 8 := by
  rw [limbPairs, List.length_zip, Verification.length_limbsAt, Verification.length_limbsAt, Nat.min_self]

/-- The first limbs of the pairs are those of the first coordinate. -/
theorem map_fst_limbPairs :
    (c.limbPairs start i key).map Prod.fst = Verification.limbsAt c.verification.x start i key.x :=
  List.map_fst_zip (by rw [Verification.length_limbsAt, Verification.length_limbsAt])

/-- The second limbs of the pairs are those of the second coordinate. -/
theorem map_snd_limbPairs :
    (c.limbPairs start i key).map Prod.snd = Verification.limbsAt c.verification.y start i key.y :=
  List.map_snd_zip (by rw [Verification.length_limbsAt, Verification.length_limbsAt])

/-- The limbs of a key have 32 bits. -/
theorem limbPairs_lt :
    ∀ pair ∈ c.limbPairs start i key, pair.1.value.toNat < 2 ^ 32 ∧ pair.2.value.toNat < 2 ^ 32 := by
  intro pair hpair
  obtain ⟨hx, hy⟩ := List.of_mem_zip hpair
  exact ⟨(Verification.holdLimbs_limbsAt ..).value_lt hx, (Verification.holdLimbs_limbsAt ..).value_lt hy⟩

end

/-- The decompositions of limbs start with the cells of the limbs. -/
theorem Proper.links_limbs (hc : c.Proper sys) {offset : Nat} {limbs : List (AssignedCell × AssignedCell)}
    (hlinked : ∀ pair ∈ limbs, sys.equalityEnabled pair.1.cell.column = true ∧ sys.equalityEnabled pair.2.cell.column = true) :
    ∀ x ∈ c.keyLinks offset limbs, sys.Links x.1.column x.2.1 := by
  intro x hx
  have hsum : sys.equalityEnabled c.range.runningSum = true := hc.linked _ (by simp [linkedColumns])
  rw [mem_keyLinks] at hx
  rcases hx with hx | hx
  · obtain ⟨k, limb, hlimb, rfl⟩ := ByteRange.mem_limbLinks.mp hx
    obtain ⟨pair, hpair, rfl⟩ := List.mem_map.mp (List.mem_of_getElem? hlimb)
    exact ⟨(hlinked pair hpair).1, hsum⟩
  · obtain ⟨k, limb, hlimb, rfl⟩ := ByteRange.mem_limbLinks.mp hx
    obtain ⟨pair, hpair, rfl⟩ := List.mem_map.mp (List.mem_of_getElem? hlimb)
    exact ⟨(hlinked pair hpair).2, hsum⟩

/-- The limbs of a key take part in copy constraints. -/
theorem Proper.linked_limbPairs (hc : c.Proper sys) (start i : Nat) (key : PublicKey) :
    ∀ pair ∈ c.limbPairs start i key,
      sys.equalityEnabled pair.1.cell.column = true ∧ sys.equalityEnabled pair.2.cell.column = true := by
  intro pair hpair
  have hlimb : ∀ {block : Vector Column 8} {w : Word} {cell : AssignedCell}, cell ∈ Verification.limbsAt block start i w →
      cell.cell.column ∈ block.toList := by
    intro block w cell hcell
    obtain ⟨⟨column, limb⟩, hzip, rfl⟩ := List.mem_map.mp hcell
    exact (List.of_mem_zip hzip).1
  obtain ⟨hx, hy⟩ := List.of_mem_zip hpair
  exact ⟨hc.linked _ (by simp [linkedColumns, Vector.mem_toList_iff.mp (hlimb hx)]),
    hc.linked _ (by simp [linkedColumns, Vector.mem_toList_iff.mp (hlimb hy)])⟩

/-- The decompositions of a key start with the cells of its limbs. -/
theorem Proper.links_key (hc : c.Proper sys) {offset start i : Nat} {key : PublicKey} :
    ∀ x ∈ c.keyLinks offset (c.limbPairs start i key), sys.Links x.1.column x.2.1 :=
  hc.links_limbs (hc.linked_limbPairs start i key)

end Bridge.Columns

end ScriptCircuit
