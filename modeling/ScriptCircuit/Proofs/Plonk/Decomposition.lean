import Mathlib
import ScriptCircuit.Proofs.Bytes.Word
import ScriptCircuit.Proofs.Plonk.Session

/-!
# Decompositions are exact

The marks of granted requests stay switched on, whatever else is done, and the table holds bytes only; so an accepted running
sum starts with a number that has the byte cells for digits, and this number is the source. It cannot wrap around, since whole
bytes below eight give numbers below the order of the field. As built, every row of a request holds what is left of its source
and the next byte, because requests share no rows and nothing else writes these columns.
-/

namespace ScriptCircuit

open WordAux

/-- A cell holds a number of some bits, and given cells hold its bytes, the least significant one first. -/
def Claim.Decomposes (claim : Claim) (source : Cell) (bits : Nat) (bytes : List AssignedCell) : Prop :=
  let value := (claim.value source.column source.row).toNat
  value < 2 ^ bits ∧ bytes.length = bits / 8 ∧
    ∀ j byte, bytes[j]? = some byte → claim.value byte.cell.column byte.cell.row = .ofNat (value / 256 ^ j % 256)

/-- Nothing of the decompositions fails: no gate, no lookup, and no copy constraint of a source that holds its value. -/
structure Claim.Passes {ι : Type} (claim : Claim) (b : ByteRange) (region : ι → Region) (events : List (OpenRegions.Event ι)) :
    Prop where
  gates : ∀ g ∈ b.gates, claim.gateFailures g = []
  lookups : ∀ l ∈ b.lookups, claim.lookupFailures l = []
  copies : ∀ q, .decompose q ∈ events → q.copy b region ∈ claim.witness.copies ∧
    (claim.copyFailure (q.copy b region) = .ok none ↔ claim.Holds (q.source.cell.column, q.source.cell.row, q.source.value))

/-- A claim about a witness with other advice; system, fixed columns and copy constraints are as built. -/
structure Claim.Overwrites (claim : Claim) (sys : System) (w : Witness) : Prop where
  system_eq : claim.system = sys
  rows_eq : claim.rows = w.matrix.rows
  copies_eq : claim.witness.copies = w.copies
  fixed_eq : ∀ c row, c.kind = .fixed → claim.value c row = w.matrix.value c row

/-- A claim made of the witness with other advice has everything else as built. -/
theorem Claim.overwrites_of_make {sys : System} {w : Witness} {advice : Array (Vector Felt w.matrix.rows)}
    {instances : List (List Felt)} {claim : Claim} (h : make sys (w.withAdvice advice) instances = .ok claim) :
    claim.Overwrites sys w := by
  obtain ⟨-, -, rfl⟩ := make_eq_ok.mp h
  refine ⟨rfl, rfl, rfl, fun c row hkind => ?_⟩
  rw [Claim.value, if_neg (by rw [hkind]; decide)]
  exact w.matrix.value_withAdvice advice row hkind

namespace ByteRange

variable {b : ByteRange} {sys : System}

/-- A number of whole bytes has no more digits than these, and is no larger than the field. -/
theorem WholeBytes.pow_eq {bits : Nat} (h : WholeBytes bits) :
    256 ^ (bits / 8) = 2 ^ bits ∧ 2 ^ bits < 18446744069414584321 := by
  obtain ⟨-, hmod, hlt⟩ := h
  have hbits : 8 * (bits / 8) = bits := by omega
  refine ⟨?_, Nat.lt_of_le_of_lt (Nat.pow_le_pow_right Nat.two_pos (by omega : bits ≤ 56)) (by decide)⟩
  rw [← hbits, Nat.pow_mul, hbits]

/-- A running sum that is accepted starts below the power of the bits, with the byte cells for digits. -/
theorem Accepted.digits {claim : Claim} (h : b.Accepted claim) {row bits : Nat} (hbits : WholeBytes bits)
    (hend : row + bits / 8 < claim.rows) (hstep : ∀ i, i < bits / 8 → claim.value b.step (row + i) = 1)
    (hstop : claim.value b.stop (row + bits / 8) = 1) :
    (claim.value b.runningSum row).toNat < 2 ^ bits ∧ ∀ j, j < bits / 8 →
      claim.value b.byte (row + j) = .ofNat ((claim.value b.runningSum row).toNat / 256 ^ j % 256) := by
  obtain ⟨bytes, hlength, hbytes, hsum⟩ := h.decomposition hend hstep hstop
  obtain ⟨hpow, hsmall⟩ := hbits.pow_eq
  have hlt := ofDigits_lt bytes
  rw [hlength, hpow] at hlt
  rw [hsum, Felt.ofNat_eq, Felt.toNat_natCast_of_lt (Nat.lt_trans hlt hsmall)]
  refine ⟨hlt, fun j hj => ?_⟩
  have hbyte := List.getElem?_eq_getElem (hlength.symm ▸ hj)
  have hdigit := ofDigits_shiftRight hbyte
  rw [hbytes j _ hbyte, Felt.ofByte_eq, Felt.ofNat_eq, ← hdigit, UInt8.toNat_ofNat', Nat.shiftRight_eq_div_pow, Nat.pow_mul]

/-- The table holds the bytes in their rows. -/
theorem mem_tableCells {x : Column × Nat × Felt} :
    x ∈ b.tableCells ↔ ∃ n, n < tableSize ∧ x = (b.table, n, .ofNat n) := by
  simp only [tableCells, List.mem_map, List.mem_range, eq_comm]

namespace Request

variable {ι : Type} {q : Request ι} {region : ι → Region} {m : Matrix} (hinside : (region q.region).Inside m)
variable (hroom : q.HasRoom sys region)
include hinside hroom

/-- The rows of a request with room are not wrapped around. -/
theorem rowAt_eq {j : Nat} (hj : j ≤ q.bits / 8) : rowAt (region q.region).start (q.offset + j) = q.row region + j := by
  have hoffset : q.offset + j < (region q.region).height := Nat.lt_of_le_of_lt (Nat.add_le_add_left hj _) hroom.1
  rw [hinside.rowAt_eq hoffset, row, Nat.add_assoc]

/-- A cell of the decomposition, at its row. -/
theorem mem_cells {c : Column} {j : Nat} {x : Felt} (hj : j ≤ q.bits / 8)
    (h : (c, q.offset + j, x) ∈ b.sumCells q.offset q.source q.bits) : (c, q.row region + j, x) ∈ q.cells b region :=
  mem_placed.mpr ⟨q.offset + j, h, (rowAt_eq hinside hroom hj).symm⟩

/-- The row of a cell of the decomposition. -/
theorem exists_of_mem_cells {c : Column} {row : Nat} {x : Felt} (h : (c, row, x) ∈ q.cells b region) :
    ∃ j, j ≤ q.bits / 8 ∧ row = q.row region + j ∧ (c, q.offset + j, x) ∈ b.sumCells q.offset q.source q.bits := by
  obtain ⟨offset, hmem, hrow⟩ := mem_placed.mp h
  obtain ⟨-, hlow, hhigh⟩ := sumCells_bounds hmem
  obtain ⟨j, rfl⟩ := Nat.exists_eq_add_of_le hlow
  have hj : j ≤ q.bits / 8 := Nat.add_le_add_iff_left.mp hhigh
  exact ⟨j, hj, hrow.trans (rowAt_eq hinside hroom hj), hmem⟩

/-- The cells of a request lie in its rows. -/
theorem covers_of_mem_cells {c : Column} {row : Nat} {x : Felt} (h : (c, row, x) ∈ q.cells b region) :
    q.Covers region row := by
  obtain ⟨j, hj, rfl, -⟩ := exists_of_mem_cells hinside hroom h
  exact ⟨Nat.le_add_right .., Nat.add_le_add_left hj _⟩

/-- The cells of a request are written once. -/
theorem unique_cells (hb : b.Declared sys) : Unique (q.cells b region) := by
  refine (unique_sumCells (List.nodup_cons.mp hb.nodup).2 q.offset q.source q.bits).placed fun x hx => ?_
  have hhigh := (sumCells_bounds hx).2.2
  have hword := hinside.1.trans hinside.2
  have hheight := hroom.1
  omega

end Request

end ByteRange

namespace OpenRegions.Session

variable {ι : Type} {b : ByteRange} {sys : System} {l : Layouter} {region : ι → Region} {s : OpenRegions ι}
variable {done : List (OpenRegions.Event ι × Except Error (List AssignedCell))} {cells : List (Column × Nat × Felt)} {copies : List Copy}
variable (h : Session b sys l region done s cells copies) (hb : b.Declared sys)
include h hb

/-- Into the table of the bytes nothing is written but the bytes. -/
theorem of_mem_table {row : Nat} {x : Felt} (hx : (b.table, row, x) ∈ cells) : row < ByteRange.tableSize ∧ x = .ofNat row := by
  rcases h.only _ hx List.mem_cons_self with htable | ⟨hwrites, -⟩
  · obtain ⟨n, hn, heq⟩ := ByteRange.mem_tableCells.mp htable
    obtain ⟨-, rfl, rfl⟩ := heq
    exact ⟨hn, rfl⟩
  · exact absurd hwrites.mem_columns (List.nodup_cons.mp hb.nodup).1

/-- A column of the decomposition is not the table. -/
theorem of_mem_columns {c : Column} {row : Nat} {x : Felt} (hx : (c, row, x) ∈ cells) (hc : c ∈ b.columns) :
    b.Writes (c, row, x) ∧ ∃ q result, (.decompose q, result) ∈ done ∧
      ∀ bytes, result = .ok bytes → (c, row, x) ∈ q.cells b region := by
  refine (h.only _ hx (List.mem_cons_of_mem _ hc)).resolve_left fun htable => ?_
  obtain ⟨n, -, heq⟩ := ByteRange.mem_tableCells.mp htable
  obtain ⟨rfl, -⟩ := Prod.mk.inj heq
  exact (List.nodup_cons.mp hb.nodup).1 hc

/-- Every row of the table holds a byte. -/
theorem table_byte {row : Nat} (hrow : row < l.rows) :
    ∃ byte, ((Matrix.zero sys l.rows).writeAll cells).value b.table row = .ofByte byte := by
  by_cases hx : ∃ x, (b.table, row, x) ∈ cells
  · obtain ⟨x, hx⟩ := hx
    obtain ⟨hbyte, rfl⟩ := h.of_mem_table hb hx
    have hmod : row % 2 ^ 8 = row := Nat.mod_eq_of_lt hbyte
    refine ⟨.ofNat row, ?_⟩
    rw [Matrix.value_writeAll_of_mem _ (hb.hasColumn l.rows _ List.mem_cons_self) hrow hx
      fun y hy => (h.of_mem_table hb hy).2, Felt.ofByte_eq, Felt.ofNat_eq, UInt8.toNat_ofNat', hmod]
  · refine ⟨0, ?_⟩
    rw [Matrix.value_writeAll_of_forall_ne _ _ _ _ fun x hmem => hx ⟨x, hmem⟩, Matrix.value_zero]
    rfl

/-- A table that is loaded holds the bytes. -/
theorem table_value {given : List AssignedCell} (hload : (.load, .ok given) ∈ done) {n : Nat} (hn : n < ByteRange.tableSize) :
    n < l.rows ∧ ((Matrix.zero sys l.rows).writeAll cells).value b.table n = .ofNat n := by
  obtain ⟨hmem, hrow⟩ := h.written _ _ hload (b.table, n, .ofNat n) (ByteRange.mem_tableCells.mpr ⟨n, hn, rfl⟩)
  exact ⟨hrow, Matrix.value_writeAll_of_mem _ (hb.hasColumn l.rows _ List.mem_cons_self) hrow hmem
    fun y hy => (h.of_mem_table hb hy).2⟩

/-- A mark that is switched on stays on. -/
theorem mark_value {c : Column} (hc : c = b.step ∨ c = b.stop) {row : Nat} (hrow : row < l.rows) (hx : (c, row, 1) ∈ cells) :
    ((Matrix.zero sys l.rows).writeAll cells).value c row = 1 := by
  have hmem : c ∈ b.columns := by
    rcases hc with rfl | rfl <;> simp [ByteRange.columns]
  have hother : ¬(c = b.runningSum ∨ c = b.byte) := by
    have hstep := hb.step_fresh
    have hstop := hb.stop_fresh
    simp only [List.mem_cons, List.not_mem_nil, or_false, not_or] at hstep hstop
    rcases hc with rfl | rfl
    · exact not_or.mpr ⟨hstep.1, hstep.2.1⟩
    · exact not_or.mpr ⟨hstop.1, hstop.2.1⟩
  refine Matrix.value_writeAll_of_mem _ (hb.hasColumn l.rows c (List.mem_cons_of_mem _ hmem)) hrow hx fun y hy => ?_
  exact ((h.of_mem_columns hb hy hmem).1.resolve_left hother).2

/-- The gates and the lookup are those of the decomposition, and the table holds bytes only. -/
theorem accepted {claim : Claim} (hover : claim.Overwrites sys ⟨(Matrix.zero sys l.rows).writeAll cells, copies⟩)
    (hpass : claim.failures = .ok []) : b.Accepted claim := by
  obtain ⟨-, hgates, hlookups, -⟩ := claim.failures_eq_nil.mp hpass
  refine ⟨fun g hg => hgates g (hover.system_eq ▸ hb.gates hg), fun l hl => hlookups l (hover.system_eq ▸ hb.lookups hl),
    fun row hrow => ?_⟩
  rw [hover.fixed_eq _ _ (hb.fixed_kind _ (by simp))]
  exact h.table_byte hb (Nat.lt_of_lt_of_eq hrow (hover.rows_eq.trans (Matrix.rows_writeAll _ cells)))

/-- What is written into the columns of the decomposition belongs to a request. -/
theorem exists_request (hgranted : ∀ q result, (.decompose q, result) ∈ done → ∃ bytes, result = .ok bytes) {c : Column}
    {row : Nat} {x : Felt} (hx : (c, row, x) ∈ cells) (hc : c ∈ b.columns) :
    ∃ q bytes, (.decompose q, .ok bytes) ∈ done ∧ (c, row, x) ∈ q.cells b region := by
  obtain ⟨-, q, result, hq, hmem⟩ := h.of_mem_columns hb hx hc
  obtain ⟨bytes, rfl⟩ := hgranted q result hq
  exact ⟨q, bytes, hq, hmem bytes rfl⟩

omit hb in
/-- A request with room is refused exactly when its source does not fit. -/
theorem refused_iff {q : ByteRange.Request ι} {result : Except Error (List AssignedCell)} (hq : (.decompose q, result) ∈ done)
    (hbits : ByteRange.WholeBytes q.bits) (hroom : q.HasRoom sys region) :
    (∃ e, result = .error e) ↔ 2 ^ q.bits ≤ q.source.value.toNat := by
  have hanswer := h.answers q result hq
  cases result with
  | error e =>
    refine iff_of_true ⟨e, rfl⟩ (Nat.not_lt.mp fun hlt => ?_)
    cases (hanswer _).mpr ⟨⟨hbits, hlt⟩, hroom, rfl⟩
  | ok bytes =>
    refine iff_of_false (fun ⟨_, he⟩ => nomatch he) (Nat.not_le.mpr ?_)
    exact ((hanswer bytes).mp rfl).1.2

omit hb in
/-- A granted request had room. -/
theorem room {q : ByteRange.Request ι} {bytes : List AssignedCell} (hq : (.decompose q, .ok bytes) ∈ done) :
    q.HasRoom sys region :=
  ((h.answers q _ hq bytes).mp rfl).2.1

omit hb in
/-- When all regions are committed, the copy constraint of a granted request is in the witness. -/
theorem copy_mem (hcommitted : ∀ i, (s.region i).copies = []) {q : ByteRange.Request ι} {bytes : List AssignedCell}
    (hq : (.decompose q, .ok bytes) ∈ done) : q.copy b region ∈ copies := by
  refine (h.linked q _ hq).resolve_right ?_
  rintro ⟨i, hi⟩
  rw [hcommitted i] at hi
  cases hi

variable (hinside : ∀ i, (region i).Inside (Matrix.zero sys l.rows))
include hinside

/-- A granted request has switched its marks on. -/
theorem marks {q : ByteRange.Request ι} {bytes : List AssignedCell} (hq : (.decompose q, .ok bytes) ∈ done) :
    (∀ j, j < q.bits / 8 → ((Matrix.zero sys l.rows).writeAll cells).value b.step (q.row region + j) = 1) ∧
      ((Matrix.zero sys l.rows).writeAll cells).value b.stop (q.row region + q.bits / 8) = 1 := by
  have hroom := h.room hq
  have hwritten : ∀ x ∈ q.cells b region, x ∈ cells ∧ x.2.1 < l.rows := h.written _ _ hq
  constructor
  · intro j hj
    have hmark := (ByteRange.marks_sumStep hb.step_fresh q.offset q.source q.bits (q.offset + j) 1).mpr ⟨by omega, rfl⟩
    obtain ⟨hmem, hrow⟩ := hwritten _ (ByteRange.Request.mem_cells (hinside q.region) hroom hj.le hmark)
    exact h.mark_value hb (.inl rfl) hrow hmem
  · have hmark := (ByteRange.marks_sumStop hb.stop_fresh q.offset q.source q.bits (q.offset + q.bits / 8) 1).mpr ⟨rfl, rfl⟩
    obtain ⟨hmem, hrow⟩ := hwritten _ (ByteRange.Request.mem_cells (hinside q.region) hroom (Nat.le_refl _) hmark)
    exact h.mark_value hb (.inr rfl) hrow hmem

omit hb in
/-- The last row of a granted request lies in the matrix. -/
theorem end_lt {q : ByteRange.Request ι} {bytes : List AssignedCell} (hq : (.decompose q, .ok bytes) ∈ done) :
    q.row region + q.bits / 8 < l.rows := by
  have hroom := h.room hq
  have hbelow : (region q.region).start + (region q.region).height ≤ l.rows := (hinside q.region).1
  have hheight := hroom.1
  unfold ByteRange.Request.row
  omega

/-! ## Whatever advice is accepted -/

/-- Whatever advice satisfies the system, the sources of granted requests are decomposed. -/
theorem decomposes (hcommitted : ∀ i, (s.region i).copies = []) {claim : Claim}
    (hover : claim.Overwrites sys ⟨(Matrix.zero sys l.rows).writeAll cells, copies⟩) (hpass : claim.failures = .ok [])
    {q : ByteRange.Request ι} {bytes : List AssignedCell} (hq : (.decompose q, .ok bytes) ∈ done) :
    claim.Decomposes q.source.cell q.bits bytes := by
  obtain ⟨hstep, hstop⟩ := h.marks hb hinside hq
  have hend : q.row region + q.bits / 8 < claim.rows :=
    (h.end_lt hinside hq).trans_eq (hover.rows_eq.trans (Matrix.rows_writeAll _ cells)).symm
  obtain ⟨hfits, hroom, rfl⟩ := (h.answers q _ hq bytes).mp rfl
  obtain ⟨hlt, hdigits⟩ := (h.accepted hb hover hpass).digits hfits.1 hend
    (fun j hj => (hover.fixed_eq _ _ (hb.fixed_kind _ (by simp))).trans (hstep j hj))
    ((hover.fixed_eq _ _ (hb.fixed_kind _ (by simp))).trans hstop)
  have hcopy : q.copy b region ∈ claim.witness.copies := by
    rw [hover.copies_eq]
    exact h.copy_mem hcommitted hq
  -- The running sum starts with the source.
  have hsource : claim.value q.source.cell.column q.source.cell.row = claim.value b.runningSum (q.row region) :=
    ((claim.failures_eq_nil.mp hpass).2.2.2 _ hcopy).2.2.trans
      (congrArg _ (ByteRange.Request.rowAt_eq (hinside q.region) hroom (Nat.zero_le _)))
  refine ⟨hsource ▸ hlt, b.length_bytesFrom .., fun j byte hbyte => ?_⟩
  have hj : j < q.bits / 8 := by
    have hlength := (List.getElem?_eq_some_iff.mp hbyte).1
    rwa [ByteRange.Request.bytes, ByteRange.length_bytesFrom] at hlength
  obtain ⟨x, hx⟩ := b.cell_bytesFrom (region q.region).start q.offset q.source.value.toNat hj
  obtain rfl := Option.some.inj (hx.symm.trans hbyte)
  rw [hsource]
  dsimp only
  rw [ByteRange.Request.rowAt_eq (hinside q.region) hroom hj.le]
  exact hdigits j hj

/-! ## The advice as built -/

variable (hgranted : ∀ q result, (.decompose q, result) ∈ done → ∃ bytes, result = .ok bytes)
include hgranted

/-- A column of the decomposition holds zero in a row into which no request writes it. -/
theorem value_or_request {c : Column} (hc : c ∈ b.columns) (row : Nat) :
    ((Matrix.zero sys l.rows).writeAll cells).value c row = 0 ∨
      ∃ q bytes j x, (.decompose q, .ok bytes) ∈ done ∧ row = q.row region + j ∧
        (c, q.offset + j, x) ∈ b.sumCells q.offset q.source q.bits := by
  by_cases hx : ∃ x, (c, row, x) ∈ cells
  · obtain ⟨x, hx⟩ := hx
    obtain ⟨q, bytes, hq, hmem⟩ := h.exists_request hb hgranted hx hc
    obtain ⟨j, -, hrow, hcell⟩ := ByteRange.Request.exists_of_mem_cells (hinside q.region) (h.room hq) hmem
    exact .inr ⟨q, bytes, j, x, hq, hrow, hcell⟩
  · left
    rw [Matrix.value_writeAll_of_forall_ne _ _ _ _ fun x hmem => hx ⟨x, hmem⟩, Matrix.value_zero]

/-- The recurrence is switched off, or on for a byte of a request. -/
theorem step_value (row : Nat) : ((Matrix.zero sys l.rows).writeAll cells).value b.step row = 0 ∨
    ((Matrix.zero sys l.rows).writeAll cells).value b.step row = 1 ∧
      ∃ q bytes j, (.decompose q, .ok bytes) ∈ done ∧ j < q.bits / 8 ∧ row = q.row region + j := by
  refine (h.value_or_request hb hinside hgranted (by simp [ByteRange.columns]) row).imp_right ?_
  rintro ⟨q, bytes, j, x, hq, rfl, hcell⟩
  obtain ⟨⟨-, hj⟩, -⟩ := (ByteRange.marks_sumStep hb.step_fresh q.offset q.source q.bits _ x).mp hcell
  have hj : j < q.bits / 8 := Nat.add_lt_add_iff_left.mp hj
  exact ⟨(h.marks hb hinside hq).1 j hj, q, bytes, j, hq, hj, rfl⟩

/-- The end is switched off, or on behind the bytes of a request. -/
theorem stop_value (row : Nat) : ((Matrix.zero sys l.rows).writeAll cells).value b.stop row = 0 ∨
    ∃ q bytes, (.decompose q, .ok bytes) ∈ done ∧ row = q.row region + q.bits / 8 := by
  refine (h.value_or_request hb hinside hgranted (by simp [ByteRange.columns]) row).imp_right ?_
  rintro ⟨q, bytes, j, x, hq, rfl, hcell⟩
  obtain ⟨hj, -⟩ := (ByteRange.marks_sumStop hb.stop_fresh q.offset q.source q.bits _ x).mp hcell
  exact ⟨q, bytes, hq, by rw [Nat.add_left_cancel hj]⟩

variable (hapart : (done.map Prod.fst).Pairwise (Event.Apart region))
include hapart

/-- What a request has written stays. -/
theorem cell_value {q : ByteRange.Request ι} {bytes : List AssignedCell} (hq : (.decompose q, .ok bytes) ∈ done) {c : Column}
    {row : Nat} {x : Felt} (hx : (c, row, x) ∈ q.cells b region) :
    ((Matrix.zero sys l.rows).writeAll cells).value c row = x := by
  obtain ⟨hmem, hrow⟩ := h.written _ _ hq _ hx
  have hc : c ∈ b.columns := (ByteRange.Request.writes_of_mem_cells hx).mem_columns
  refine Matrix.value_writeAll_of_mem _ (hb.hasColumn l.rows c (List.mem_cons_of_mem _ hc)) hrow hmem fun y hy => ?_
  obtain ⟨q', bytes', hq', hy'⟩ := h.exists_request hb hgranted hy hc
  have hcovers : q.Covers region row := ByteRange.Request.covers_of_mem_cells (hinside q.region) (h.room hq) hx
  have hcovers' : q'.Covers region row := ByteRange.Request.covers_of_mem_cells (hinside q'.region) (h.room hq') hy'
  -- Two requests that write one row are one.
  have hsame : Event.decompose q = Event.decompose q' := by
    by_contra hne
    exact hapart.forall (List.mem_map_of_mem hq) (List.mem_map_of_mem hq') hne q q' rfl rfl row
      ⟨hcovers, hcovers'⟩
  obtain rfl := Event.decompose.inj hsame
  exact ByteRange.Request.unique_cells (hinside q.region) (h.room hq) hb _ hy' _ hx rfl rfl

/-- The running sum of a request holds what is left of its source. -/
theorem sum_value {q : ByteRange.Request ι} {bytes : List AssignedCell} (hq : (.decompose q, .ok bytes) ∈ done) {j : Nat}
    (hj : j ≤ q.bits / 8) : ((Matrix.zero sys l.rows).writeAll cells).value b.runningSum (q.row region + j) =
      .ofNat (q.source.value.toNat / 256 ^ j) := by
  have hroom := h.room hq
  refine h.cell_value hb hinside hgranted hapart hq (ByteRange.Request.mem_cells (hinside q.region) hroom hj ?_)
  cases j with
  | zero =>
    rw [pow_zero, Nat.div_one, Felt.ofNat_eq, Felt.natCast_toNat]
    exact List.mem_cons_self
  | succ j => exact List.mem_cons_of_mem _ (b.mem_byteCells q.offset q.source.value.toNat hj).2

/-- The byte cells of a request hold the bytes of its source. -/
theorem byte_value {q : ByteRange.Request ι} {bytes : List AssignedCell} (hq : (.decompose q, .ok bytes) ∈ done) {j : Nat}
    (hj : j < q.bits / 8) : ((Matrix.zero sys l.rows).writeAll cells).value b.byte (q.row region + j) =
      .ofNat (q.source.value.toNat / 256 ^ j % 256) := by
  have hroom := h.room hq
  exact h.cell_value hb hinside hgranted hapart hq (ByteRange.Request.mem_cells (hinside q.region) hroom hj.le
    (List.mem_cons_of_mem _ (b.mem_byteCells q.offset q.source.value.toNat hj).1))

variable {claim : Claim} (hmatrix : claim.witness.matrix = (Matrix.zero sys l.rows).writeAll cells)
include hmatrix

omit h hinside hgranted hapart in
/-- As built, the columns of the decompositions hold what the session wrote. -/
theorem owned_value {c : Column} (hc : c ∈ b.owned) (row : Nat) :
    claim.value c row = ((Matrix.zero sys l.rows).writeAll cells).value c row := by
  rw [Claim.value, if_neg ((Matrix.hasColumn_zero sys l.rows c).mp (hb.hasColumn l.rows c hc)).1, hmatrix]

omit h hb hinside hgranted hapart in
theorem rows_eq : claim.rows = l.rows := by
  rw [Claim.rows, hmatrix, Matrix.rows_writeAll, Matrix.rows_zero]

/-- The gates hold on every row. -/
theorem holds_gates {row : Nat} (hrow : row < claim.rows) : ∀ g ∈ b.gates, g.Holds (claim.read row) := by
  have hvalue : ∀ c ∈ b.columns, ∀ row, claim.value c row = ((Matrix.zero sys l.rows).writeAll cells).value c row :=
    fun c hc => owned_value hb hmatrix (List.mem_cons_of_mem _ hc)
  simp only [ByteRange.columns, List.forall_mem_cons, List.not_mem_nil, false_implies, implies_true, and_true] at hvalue
  obtain ⟨hsum, hbyte, hstep, hstop⟩ := hvalue
  refine ByteRange.holds_gates hrow ?_ ?_
  · rw [hstep]
    refine (h.step_value hb hinside hgranted row).imp_right ?_
    rintro ⟨-, q, bytes, j, hq, hj, rfl⟩
    have hend := h.end_lt hinside hq
    rw [rows_eq hmatrix]
    refine ⟨by omega, q.source.value.toNat / 256 ^ j, ?_, ?_, ?_⟩
    · rw [hsum, h.sum_value hb hinside hgranted hapart hq hj.le]
    · rw [hbyte, h.byte_value hb hinside hgranted hapart hq hj]
    · rw [hsum, Nat.add_assoc, h.sum_value hb hinside hgranted hapart hq hj, Nat.pow_succ, Nat.div_div_eq_div_mul]
  · rw [hstop, hsum]
    refine (h.stop_value hb hinside hgranted row).imp_right ?_
    rintro ⟨q, bytes, hq, rfl⟩
    obtain ⟨⟨hbits, hfits⟩, -⟩ := (h.answers q _ hq bytes).mp rfl
    rw [h.sum_value hb hinside hgranted hapart hq (Nat.le_refl _), hbits.pow_eq.1, Nat.div_eq_of_lt hfits]
    rfl

/-- The lookup finds its input on every row when the table is loaded. -/
theorem finds_lookups {given : List AssignedCell} (hload : (.load, .ok given) ∈ done) {row : Nat} (hrow : row < claim.rows) :
    ∀ l ∈ b.lookups, claim.Finds l row := by
  have hstep : b.step ∈ b.owned := by simp [ByteRange.owned, ByteRange.columns]
  have hbyte : b.byte ∈ b.owned := by simp [ByteRange.owned, ByteRange.columns]
  have hlast : ByteRange.tableSize - 1 < l.rows := (h.table_value hb hload (by decide)).1
  have hsize : ByteRange.tableSize ≤ claim.rows := by
    rw [rows_eq hmatrix]
    exact Nat.le_of_pred_lt hlast
  refine ByteRange.finds_lookups hrow hsize (fun n hn => ?_) ?_
  · rw [owned_value hb hmatrix List.mem_cons_self, (h.table_value hb hload hn).2]
  · rw [owned_value hb hmatrix hstep]
    refine (h.step_value hb hinside hgranted row).imp_right (And.imp_right ?_)
    rintro ⟨q, bytes, j, hq, hj, rfl⟩
    rw [owned_value hb hmatrix hbyte]
    exact ⟨_, Nat.mod_lt _ (by decide), h.byte_value hb hinside hgranted hapart hq hj⟩

/-- A source agrees with the start of its running sum exactly when it holds its value. -/
theorem agrees_iff {q : ByteRange.Request ι} {bytes : List AssignedCell} (hq : (.decompose q, .ok bytes) ∈ done) :
    claim.Agrees (q.copy b region) ↔ claim.Holds (q.source.cell.column, q.source.cell.row, q.source.value) := by
  have hend := h.end_lt hinside hq
  have hroom := h.room hq
  have howned : b.runningSum ∈ b.owned := by simp [ByteRange.owned, ByteRange.columns]
  have hcolumn := hb.hasColumn l.rows _ howned
  have hstart : claim.Holds (b.runningSum, rowAt (region q.region).start q.offset, q.source.value) := by
    have hrow : rowAt (region q.region).start q.offset = q.row region + 0 :=
      ByteRange.Request.rowAt_eq (hinside q.region) hroom (Nat.zero_le _)
    rw [hrow]
    constructor
    · rw [Claim.HasCell, if_neg ((Matrix.hasColumn_zero sys l.rows _).mp hcolumn).1, rows_eq hmatrix, hmatrix,
        Matrix.hasColumn_writeAll]
      exact ⟨Nat.lt_of_le_of_lt (Nat.le_add_right ..) hend, hcolumn⟩
    · rw [owned_value hb hmatrix howned, h.sum_value hb hinside hgranted hapart hq (Nat.zero_le _), pow_zero, Nat.div_one,
        Felt.ofNat_eq, Felt.natCast_toNat]
  constructor
  · rintro ⟨hsource, -, heq⟩
    exact ⟨hsource, heq.trans hstart.2⟩
  · exact fun hsource => hsource.agrees hstart

/-- Nothing of the decompositions fails in a claim about the witness as built. -/
theorem passes (hcommitted : ∀ i, (s.region i).copies = []) (hcopies : claim.witness.copies = copies)
    {given : List AssignedCell} (hload : (.load, .ok given) ∈ done) : claim.Passes b region (done.map Prod.fst) := by
  refine ⟨fun g hg => ?_, fun lookup hlookup => ?_, fun q hq => ?_⟩
  · exact (claim.gateFailures_eq_nil g).mpr fun row hrow => h.holds_gates hb hinside hgranted hapart hmatrix hrow g hg
  · exact (claim.lookupFailures_eq_nil lookup).mpr fun row hrow =>
      h.finds_lookups hb hinside hgranted hapart hmatrix hload hrow lookup hlookup
  · obtain ⟨⟨e, result⟩, hmem, rfl⟩ := List.mem_map.mp hq
    obtain ⟨bytes, rfl⟩ := hgranted q result hmem
    rw [hcopies, claim.copyFailure_eq_none]
    exact ⟨h.copy_mem hcommitted hmem, h.agrees_iff hb hinside hgranted hapart hmatrix hmem⟩

end OpenRegions.Session

namespace OpenRegions

variable {ι : Type} [DecidableEq ι]

/-- A run reports its events in order. -/
theorem map_fst_run (s : OpenRegions ι) (b : ByteRange) (sys : System) (events : List (Event ι)) :
    (s.run b sys events).1.map Prod.fst = events := by
  induction events generalizing s with
  | nil => rfl
  | cons e events ih => exact congrArg (e :: ·) (ih _)

/-- Decompositions are exact. Over open regions of a plan, where nothing else writes the columns of a declared
decomposition, a request with room is refused exactly when its source does not fit into the bits. Once all regions are
committed, nothing of the decompositions fails in the witness as built, when the table is loaded, no two requests share a row
and none is refused; and whatever advice satisfies the system, the source of every granted request holds a number of its bits,
with the byte cells for digits. -/
theorem decompositions_exact {b : ByteRange} {sys : System} (hb : b.DeclaredIn sys) {calls : List PlanCall}
    (hheight : PlanCall.height calls ≤ 2 ^ 63) (htables : ∀ rows ∈ PlanCall.tables calls, rows ≤ 2 ^ 63)
    {numbers : List (Option Nat)} {l : Layouter} (hplan : (Synthesis.plan sys calls).Ends ∅ numbers l)
    {region : ι → Region} (hregion : ∀ i, ∃ number, l.region number = .ok (region i)) {events : List (Event ι)}
    (hspare : ∀ e ∈ events, e.Spares b) {done : List (Event ι × Except Error (List AssignedCell))} {s : OpenRegions ι}
    (hrun : (OpenRegions.mk region l).run b sys events = (done, s)) :
    done.map Prod.fst = events ∧
      (∀ q result, (.decompose q, result) ∈ done → ByteRange.WholeBytes q.bits → q.HasRoom sys region →
        ((∃ e, result = .error e) ↔ 2 ^ q.bits ≤ q.source.value.toNat)) ∧
      ∃ w l', s.layouter.take = .ok (w, l') ∧ ((∀ i, (s.region i).copies = []) →
        ((∃ given, (.load, .ok given) ∈ done) → events.Pairwise (Event.Apart region) →
          (∀ q e, (.decompose q, .error e) ∉ done) →
            ∀ instances claim, Claim.make sys w instances = .ok claim → claim.Passes b region events) ∧
        ∀ advice instances claim, Claim.make sys (w.withAdvice advice) instances = .ok claim → claim.failures = .ok [] →
          ∀ q bytes, (.decompose q, .ok bytes) ∈ done → claim.Decomposes q.source.cell q.bits bytes) := by
  obtain ⟨numbers', hplan', -⟩ := Layouter.ends_plan sys hheight
  obtain ⟨rfl, rfl⟩ := Prod.mk.inj (Except.ok.inj (hplan.symm.trans hplan'))
  have hhouses := Layouter.houses_laidOut sys hheight htables
  have hinside : ∀ i, (region i).Inside (Matrix.zero sys (Layouter.laidOut sys calls).rows) := by
    intro i
    obtain ⟨number, hnumber⟩ := hregion i
    exact ⟨(Layouter.end_le_height hnumber).trans hhouses.rows.1.1.1, hhouses.word.trans (by decide)⟩
  have hfresh : ∀ i, (region i).copies = [] := by
    intro i
    obtain ⟨number, hnumber⟩ := hregion i
    exact Layouter.copies_of_region hnumber
  have hstart : Session b sys (Layouter.laidOut sys calls) region [] ⟨region, Layouter.laidOut sys calls⟩ [] [] :=
    .start rfl hfresh
  obtain ⟨cells, copies, h⟩ := hstart.run hb.declared hinside hspare
  have hmap := map_fst_run ⟨region, Layouter.laidOut sys calls⟩ b sys events
  rw [hrun] at h hmap
  rw [List.nil_append] at h
  refine ⟨hmap, fun q result hq hbits hroom => h.refused_iff hq hbits hroom,
    ⟨(Matrix.zero sys (Layouter.laidOut sys calls).rows).writeAll cells, copies⟩,
    { Layouter.laidOut sys calls with witness? := none }, ?_, fun hcommitted => ⟨?_, ?_⟩⟩
  · rw [h.layouter]
    rfl
  · rintro ⟨given, hload⟩ hapart hnone instances claim hclaim
    obtain ⟨-, -, rfl⟩ := Claim.make_eq_ok.mp hclaim
    have hgranted : ∀ q result, (.decompose q, result) ∈ done → ∃ bytes, result = .ok bytes := by
      intro q result hq
      cases result with
      | error e => exact absurd hq (hnone q e)
      | ok bytes => exact ⟨bytes, rfl⟩
    rw [← hmap] at hapart ⊢
    exact h.passes hb.declared hinside hgranted hapart rfl hcommitted rfl hload
  · intro advice instances claim hclaim hpass q bytes hq
    exact h.decomposes hb.declared hinside hcommitted (Claim.overwrites_of_make hclaim) hpass hq

/-- Two sources in an upper region are decomposed in a lower one, the first into three bytes and the second, behind it, into
one. -/
theorem decompositions_exact_twoRequests :
    let before : System := ((∅ : System).addColumn .advice).2.enableEquality ⟨.advice, 0⟩
    let b := (ByteRange.configure.run before).1
    let sys := (ByteRange.configure.run before).2
    let calls : List PlanCall := [.region "sources" 2, .table ByteRange.tableName ByteRange.tableSize, .region "range" 6]
    let region := fun side : Side => side.pick (⟨"sources", 0, 2, []⟩ : Region) ⟨"range", 2, 6, []⟩
    let wide : AssignedCell := ⟨⟨⟨.advice, 0⟩, 0⟩, .ofNat 658188⟩
    let narrow : AssignedCell := ⟨⟨⟨.advice, 0⟩, 1⟩, .ofNat 200⟩
    let wideBytes : List AssignedCell := [⟨⟨b.byte, 2⟩, .ofNat 12⟩, ⟨⟨b.byte, 3⟩, .ofNat 11⟩, ⟨⟨b.byte, 4⟩, .ofNat 10⟩]
    let narrowBytes : List AssignedCell := [⟨⟨b.byte, 6⟩, .ofNat 200⟩]
    let events : List (Event Side) :=
      [.load, .call .left (.assignAdvice ⟨.advice, 0⟩ 0 wide.value), .call .left (.assignAdvice ⟨.advice, 0⟩ 1 narrow.value),
        .decompose ⟨.right, 0, wide, 24⟩, .decompose ⟨.right, 4, narrow, 8⟩, .commit .right]
    ∃ numbers l done s w l', (Synthesis.plan sys calls).Ends ∅ numbers l ∧ l.region 0 = .ok (region .left) ∧
      l.region 1 = .ok (region .right) ∧ (OpenRegions.mk region l).run b sys events = (done, s) ∧
        s.layouter.take = .ok (w, l') ∧ (.decompose ⟨.right, 0, wide, 24⟩, .ok wideBytes) ∈ done ∧
        (.decompose ⟨.right, 4, narrow, 8⟩, .ok narrowBytes) ∈ done ∧
        (∀ instances claim, Claim.make sys w instances = .ok claim → claim.Passes b region events) ∧
          ∀ advice instances claim, Claim.make sys (w.withAdvice advice) instances = .ok claim → claim.failures = .ok [] →
            claim.Decomposes wide.cell 24 wideBytes ∧ claim.Decomposes narrow.cell 8 narrowBytes := by
  intro before b sys calls region wide narrow wideBytes narrowBytes events
  have hran : ((OpenRegions.mk region (Layouter.laidOut sys calls)).run b sys events).1.map Prod.snd =
      [.ok [], .ok [wide], .ok [narrow], .ok wideBytes, .ok narrowBytes, .ok []] ∧
        (((OpenRegions.mk region (Layouter.laidOut sys calls)).run b sys events).2.region .left).copies = [] ∧
        (((OpenRegions.mk region (Layouter.laidOut sys calls)).run b sys events).2.region .right).copies = [] := by
    decide +kernel +revert
  obtain ⟨numbers, hplan, -⟩ := Layouter.ends_plan sys (by decide : PlanCall.height calls ≤ 2 ^ 63)
  have hleft : (Layouter.laidOut sys calls).region 0 = .ok (region .left) := Layouter.region_laidOut.mpr ⟨_, rfl, rfl⟩
  have hright : (Layouter.laidOut sys calls).region 1 = .ok (region .right) := Layouter.region_laidOut.mpr ⟨_, rfl, rfl⟩
  have hregion : ∀ side, ∃ number, (Layouter.laidOut sys calls).region number = .ok (region side) := by
    intro side
    cases side with
    | left => exact ⟨0, hleft⟩
    | right => exact ⟨1, hright⟩
  have hb : b.DeclaredIn sys := ⟨before, sys, rfl, ⟨fun _ => Nat.le_refl _, fun _ h => h, fun _ h => h, fun _ h => h⟩⟩
  have hspare : ∀ e ∈ events, e.Spares b := by
    have hcolumn : (⟨.advice, 0⟩ : Column) ∉ b.owned := by decide
    simp [events, Event.Spares, RegionCall.column?, hcolumn]
  rcases hrun : (OpenRegions.mk region (Layouter.laidOut sys calls)).run b sys events with ⟨done, s⟩
  rw [hrun] at hran
  obtain ⟨hresults, hcommitted⟩ := hran
  obtain ⟨hevents, -, w, l', htake, hrest⟩ :=
    decompositions_exact hb (by decide) (by decide) hplan hregion hspare hrun
  have hdone : done = events.zip [.ok [], .ok [wide], .ok [narrow], .ok wideBytes, .ok narrowBytes, .ok []] := by
    rw [← List.zip_unzip done, List.unzip_eq_map, hevents]
    exact congrArg _ hresults
  have hwide : (.decompose ⟨.right, 0, wide, 24⟩, .ok wideBytes) ∈ done := by simp [hdone, events]
  have hnarrow : (.decompose ⟨.right, 4, narrow, 8⟩, .ok narrowBytes) ∈ done := by simp [hdone, events]
  obtain ⟨hpasses, hdecomposes⟩ := hrest fun side => by
    cases side with
    | left => exact hcommitted.1
    | right => exact hcommitted.2
  refine ⟨numbers, _, done, s, w, l', hplan, hleft, hright, hrun, htake, hwide, hnarrow, ?_, ?_⟩
  · refine hpasses ⟨[], by simp [hdone, events]⟩ ?_ (by simp [hdone, events])
    -- rows 2 to 5 against rows 6 and 7
    have hapart : Event.Apart region (.decompose ⟨.right, 0, wide, 24⟩) (.decompose ⟨.right, 4, narrow, 8⟩) := by
      rintro _ _ ⟨rfl⟩ ⟨rfl⟩ row ⟨⟨-, hhigh⟩, hlow, -⟩
      exact absurd (Nat.le_trans hlow hhigh) (by decide)
    simpa [events, Event.Apart] using hapart
  · intro advice instances claim hclaim hpass
    exact ⟨hdecomposes advice instances claim hclaim hpass _ _ hwide,
      hdecomposes advice instances claim hclaim hpass _ _ hnarrow⟩

end OpenRegions

end ScriptCircuit
