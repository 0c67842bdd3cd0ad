import Mathlib
import ScriptCircuit.Plonk.Matrix

/-!
# Reading what was written

A write changes one cell of the matrix and neither its height nor its columns. A list of writes is read back cell by cell:
a cell that some write names holds the value of that write when all writes to it agree, and a cell that no write names is
as before.
-/

namespace ScriptCircuit

namespace MatrixAux

theorem except_ok_eq_ok {ε α : Type} {a b : α} : (.ok a : Except ε α) = .ok b ↔ b = a := by
  rw [Except.ok.injEq, eq_comm]

/-- A sequence gives a value when its first part gives one from which the second part gives it. -/
theorem except_bind_eq_ok {ε α β : Type} {x : Except ε α} {f : α → Except ε β} {b : β} :
    (x >>= f) = .ok b ↔ ∃ a, x = .ok a ∧ f a = .ok b := by
  cases x with
  | error e => simp [bind, Except.bind]
  | ok a => simp [bind, Except.bind]

/-- A sequence fails when its first part fails, or its second part behind the first. -/
theorem except_bind_eq_error {ε α β : Type} {x : Except ε α} {f : α → Except ε β} {e : ε} :
    (x >>= f) = .error e ↔ x = .error e ∨ ∃ a, x = .ok a ∧ f a = .error e := by
  cases x with
  | error e' => simp [bind, Except.bind]
  | ok a => simp [bind, Except.bind]

/-- A column of zeros reads zero everywhere, outside as well. -/
theorem getD_replicate (rows row : Nat) : (Vector.replicate rows (0 : Felt))[row]?.getD 0 = 0 := by
  rw [Vector.getElem?_replicate]
  split <;> rfl

/-- The cell of a block of columns, zero outside. -/
def cellOf {rows : Nat} (block : Array (Vector Felt rows)) (index row : Nat) : Felt :=
  (block[index]?.bind fun values => values[row]?).getD 0

/-- Writing a cell of a block leaves the others. -/
theorem cellOf_modify_of_ne {rows : Nat} (block : Array (Vector Felt rows)) {index row index' row' : Nat} (x : Felt)
    (h : ¬(index' = index ∧ row' = row)) :
    cellOf (block.modify index (·.setIfInBounds row x)) index' row' = cellOf block index' row' := by
  unfold cellOf
  rw [Array.getElem?_modify]
  by_cases hi : index = index'
  · subst hi
    have hrow : row ≠ row' := fun e => h ⟨rfl, e.symm⟩
    rw [if_pos rfl]
    cases block[index]? with
    | none => rfl
    | some values => simp [Vector.getElem?_setIfInBounds_ne, hrow]
  · rw [if_neg hi]

/-- A cell written inside a block is read back. -/
theorem cellOf_modify_self {rows : Nat} (block : Array (Vector Felt rows)) {index row : Nat} (x : Felt)
    (hi : index < block.size) (hrow : row < rows) :
    cellOf (block.modify index (·.setIfInBounds row x)) index row = x := by
  unfold cellOf
  rw [Array.getElem?_modify, if_pos rfl, Array.getElem?_eq_getElem hi]
  simp [hrow]

end MatrixAux

open MatrixAux

namespace Matrix

/-- The matrix has a column. -/
def HasColumn (m : Matrix) (c : Column) : Prop :=
  match c.kind with
  | .advice => c.index < m.advice.size
  | .fixed => c.index < m.fixed.size
  | .publicInput => False

/-- Writes cells, given by column and row, one after the other. -/
def writeAll (m : Matrix) (cells : List (Column × Nat × Felt)) : Matrix :=
  cells.foldl (fun m (c, row, x) => m.write c row x) m

theorem writeAll_nil (m : Matrix) : m.writeAll [] = m :=
  rfl

/-- The first cell is written first. -/
theorem writeAll_cons (m : Matrix) (cell : Column × Nat × Felt) (cells : List (Column × Nat × Felt)) :
    m.writeAll (cell :: cells) = (m.write cell.1 cell.2.1 cell.2.2).writeAll cells :=
  rfl

/-- Lists of writes follow each other. -/
theorem writeAll_append (m : Matrix) (cells cells' : List (Column × Nat × Felt)) :
    m.writeAll (cells ++ cells') = (m.writeAll cells).writeAll cells' :=
  List.foldl_append

/-- The matrix of a system has the columns of the system. -/
theorem hasColumn_zero (sys : System) (rows : Nat) (c : Column) :
    (zero sys rows).HasColumn c ↔ c.kind ≠ .publicInput ∧ c.index < sys.count c.kind := by
  obtain ⟨kind, index⟩ := c
  cases kind <;> simp [HasColumn, zero, System.count]

/-- The matrix of a system has its advice columns. -/
theorem hasColumn_zero_advice {sys : System} (rows : Nat) {c : Column} (h : c.kind = .advice ∧ c.index < sys.adviceCount) :
    (zero sys rows).HasColumn c := by
  rw [hasColumn_zero, h.1]
  exact ⟨nofun, h.2⟩

/-- The matrix of a system has its fixed columns. -/
theorem hasColumn_zero_fixed {sys : System} (rows : Nat) {c : Column} (h : c.kind = .fixed ∧ c.index < sys.fixedCount) :
    (zero sys rows).HasColumn c := by
  rw [hasColumn_zero, h.1]
  exact ⟨nofun, h.2⟩

/-- The matrix of zeros has the rows asked for. -/
theorem rows_zero (sys : System) (rows : Nat) : (zero sys rows).rows = rows :=
  rfl

/-- The matrix of zeros reads zero. -/
theorem value_zero (sys : System) (rows : Nat) (c : Column) (row : Nat) : (zero sys rows).value c row = 0 := by
  obtain ⟨kind, index⟩ := c
  cases kind with
  | advice =>
    simp only [value, zero]
    split
    · rename_i values h
      obtain ⟨_, rfl⟩ := Array.getElem?_eq_some_iff.mp h
      simp only [Array.getElem_replicate]
      exact getD_replicate rows row
    · rfl
  | fixed =>
    simp only [value, zero]
    split
    · rename_i values h
      obtain ⟨_, rfl⟩ := Array.getElem?_eq_some_iff.mp h
      simp only [Array.getElem_replicate]
      exact getD_replicate rows row
    · rfl
  | publicInput => rfl

/-! ## One write -/

/-- A write keeps the height. -/
theorem rows_write (m : Matrix) (c : Column) (row : Nat) (x : Felt) : (m.write c row x).rows = m.rows := by
  unfold write
  split <;> rfl

/-- A write keeps the columns. -/
theorem hasColumn_write (m : Matrix) (c : Column) (row : Nat) (x : Felt) (c' : Column) :
    (m.write c row x).HasColumn c' ↔ m.HasColumn c' := by
  obtain ⟨kind, index⟩ := c
  obtain ⟨kind', index'⟩ := c'
  cases kind <;> cases kind' <;> simp [write, HasColumn]

/-- An advice cell is read from the advice block. -/
theorem value_advice (m : Matrix) (index row : Nat) : m.value ⟨.advice, index⟩ row = cellOf m.advice index row := by
  simp only [value, cellOf]
  cases m.advice[index]? <;> rfl

/-- A fixed cell is read from the fixed block. -/
theorem value_fixed (m : Matrix) (index row : Nat) : m.value ⟨.fixed, index⟩ row = cellOf m.fixed index row := by
  simp only [value, cellOf]
  cases m.fixed[index]? <;> rfl

/-- A write leaves every other cell. -/
theorem value_write_of_ne (m : Matrix) {c c' : Column} {row row' : Nat} (x : Felt) (h : ¬(c' = c ∧ row' = row)) :
    (m.write c row x).value c' row' = m.value c' row' := by
  obtain ⟨kind, index⟩ := c
  obtain ⟨kind', index'⟩ := c'
  cases kind' with
  | advice =>
    rw [value_advice, value_advice]
    cases kind with
    | advice => exact cellOf_modify_of_ne m.advice x fun hc => h ⟨by rw [hc.1], hc.2⟩
    | fixed => rfl
    | publicInput => rfl
  | fixed =>
    rw [value_fixed, value_fixed]
    cases kind with
    | advice => rfl
    | fixed => exact cellOf_modify_of_ne m.fixed x fun hc => h ⟨by rw [hc.1], hc.2⟩
    | publicInput => rfl
  | publicInput => rfl

/-- A write inside the matrix is read back. -/
theorem value_write_self (m : Matrix) {c : Column} {row : Nat} (x : Felt) (hc : m.HasColumn c) (hrow : row < m.rows) :
    (m.write c row x).value c row = x := by
  obtain ⟨kind, index⟩ := c
  cases kind with
  | advice =>
    rw [value_advice]
    exact cellOf_modify_self m.advice x hc hrow
  | fixed =>
    rw [value_fixed]
    exact cellOf_modify_self m.fixed x hc hrow
  | publicInput => exact hc.elim

/-- The check of a column asks whether the matrix has it. -/
theorem column_isOk (m : Matrix) (c : Column) : (∃ values, m.column c = .ok values) ↔ m.HasColumn c := by
  obtain ⟨kind, index⟩ := c
  cases kind with
  | advice =>
    by_cases hi : index < m.advice.size
    · simp [column, column?, HasColumn, hi, pure, Except.pure]
    · simp [column, column?, HasColumn, hi, throw, throwThe, MonadExceptOf.throw]
  | fixed =>
    by_cases hi : index < m.fixed.size
    · simp [column, column?, HasColumn, hi, pure, Except.pure]
    · simp [column, column?, HasColumn, hi, throw, throwThe, MonadExceptOf.throw]
  | publicInput => simp [column, HasColumn, throw, throwThe, MonadExceptOf.throw]

/-- The check of a cell asks for its row and its column. -/
theorem checkCell_eq_ok (m : Matrix) (c : Column) (row : Nat) :
    m.checkCell c row = .ok () ↔ row < m.rows ∧ m.HasColumn c := by
  rw [← column_isOk]
  unfold checkCell
  by_cases hrow : m.rows ≤ row
  · simp [hrow, throw, throwThe, MonadExceptOf.throw, bind, Except.bind, Nat.not_lt.mpr hrow]
  · cases hcol : m.column c with
    | error e => simp [hrow, discard, Functor.discard, Functor.mapConst, Except.map]
    | ok values => simp [hrow, Nat.not_le.mp hrow, discard, Functor.discard, Functor.mapConst, Except.map]

/-! ## Many writes -/

/-- Writes keep the height. -/
theorem rows_writeAll (m : Matrix) (cells : List (Column × Nat × Felt)) : (m.writeAll cells).rows = m.rows := by
  induction cells generalizing m with
  | nil => rfl
  | cons cell cells ih => rw [writeAll_cons, ih, rows_write]

/-- Writes keep the columns. -/
theorem hasColumn_writeAll (m : Matrix) (cells : List (Column × Nat × Felt)) (c : Column) :
    (m.writeAll cells).HasColumn c ↔ m.HasColumn c := by
  induction cells generalizing m with
  | nil => rfl
  | cons cell cells ih => rw [writeAll_cons, ih, hasColumn_write]

/-- A cell that no write names is as before. -/
theorem value_writeAll_of_forall_ne (m : Matrix) (cells : List (Column × Nat × Felt)) (c : Column) (row : Nat)
    (h : ∀ x, (c, row, x) ∉ cells) : (m.writeAll cells).value c row = m.value c row := by
  induction cells generalizing m with
  | nil => rfl
  | cons cell cells ih =>
    rw [writeAll_cons, ih _ (fun x hx => h x (List.mem_cons_of_mem _ hx)), value_write_of_ne]
    rintro ⟨rfl, rfl⟩
    exact h cell.2.2 List.mem_cons_self

/-- A cell to which all writes agree holds what they write. -/
theorem value_writeAll_of_mem (m : Matrix) {cells : List (Column × Nat × Felt)} {c : Column} {row : Nat} {x : Felt}
    (hc : m.HasColumn c) (hrow : row < m.rows) (hmem : (c, row, x) ∈ cells)
    (hall : ∀ y, (c, row, y) ∈ cells → y = x) : (m.writeAll cells).value c row = x := by
  induction cells generalizing m with
  | nil => exact absurd hmem List.not_mem_nil
  | cons cell cells ih =>
    rw [writeAll_cons]
    by_cases hrest : (c, row, x) ∈ cells
    · exact ih _ ((hasColumn_write ..).mpr hc) (by rw [rows_write]; exact hrow) hrest
        (fun y hy => hall y (List.mem_cons_of_mem _ hy))
    · have hcell : (c, row, x) = cell := (List.mem_cons.mp hmem).resolve_right hrest
      subst hcell
      rw [value_writeAll_of_forall_ne, value_write_self m x hc hrow]
      intro y hy
      exact hrest (hall y (List.mem_cons_of_mem _ hy) ▸ hy)

/-- A cell of a fresh matrix holds what is written into it, and zero when nothing is. -/
theorem value_zero_writeAll {sys : System} {rows : Nat} {cells : List (Column × Nat × Felt)} {c : Column} {row : Nat}
    {x : Felt} {P : Prop} [Decidable P] (hc : (zero sys rows).HasColumn c) (hrow : P → row < rows)
    (h : ∀ y, (c, row, y) ∈ cells ↔ P ∧ y = x) : ((zero sys rows).writeAll cells).value c row = if P then x else 0 := by
  by_cases hP : P
  · rw [if_pos hP]
    exact value_writeAll_of_mem _ hc (hrow hP) ((h x).mpr ⟨hP, rfl⟩) fun y hy => ((h y).mp hy).2
  · rw [if_neg hP, value_writeAll_of_forall_ne _ _ _ _ fun y hy => hP ((h y).mp hy).1, value_zero]

/-- A matrix with other advice; the fixed columns stay. -/
def withAdvice (m : Matrix) (advice : Array (Vector Felt m.rows)) : Matrix :=
  { m with advice := advice }

/-- With other advice the fixed cells read as before. -/
theorem value_withAdvice (m : Matrix) (advice : Array (Vector Felt m.rows)) {c : Column} (row : Nat)
    (h : c.kind = .fixed) : (m.withAdvice advice).value c row = m.value c row := by
  obtain ⟨kind, index⟩ := c
  cases h
  rw [value_fixed, value_fixed]
  rfl

/-- The advice of a matrix with other values in one column. -/
def replaceColumn (m : Matrix) (index : Nat) (values : Nat → Felt) : Array (Vector Felt m.rows) :=
  m.advice.setIfInBounds index (.ofFn fun row => values row)

/-- Replacing a column changes that column and no other. -/
theorem value_replaceColumn (m : Matrix) {index : Nat} (values : Nat → Felt) (hindex : index < m.advice.size) (c : Column)
    {row : Nat} (hrow : row < m.rows) : (m.withAdvice (m.replaceColumn index values)).value c row =
      if c = ⟨.advice, index⟩ then values row else m.value c row := by
  obtain ⟨kind, index'⟩ := c
  cases kind with
  | advice =>
    rw [value_advice, value_advice]
    change (((m.advice.setIfInBounds index (.ofFn fun row => values row))[index']?).bind fun column => column[row]?).getD 0 = _
    rw [Array.getElem?_setIfInBounds]
    by_cases h : index = index'
    · subst h
      rw [if_pos rfl, if_pos hindex, if_pos rfl, Option.bind_some, Vector.getElem?_ofFn, dif_pos hrow, Option.getD_some]
    · rw [if_neg h, if_neg fun hcolumn => h (Column.mk.inj hcolumn).2.symm]
      rfl
  | fixed =>
    rw [if_neg (by nofun)]
    exact m.value_withAdvice _ row rfl
  | publicInput =>
    rw [if_neg (by nofun)]
    rfl

/-- Replacing the values of a column keeps the columns. -/
theorem hasColumn_replaceColumn (m : Matrix) (index : Nat) (values : Nat → Felt) (c : Column) :
    (m.withAdvice (m.replaceColumn index values)).HasColumn c ↔ m.HasColumn c := by
  obtain ⟨kind, index'⟩ := c
  cases kind with
  | advice =>
    change index' < (m.advice.setIfInBounds index _).size ↔ index' < m.advice.size
    rw [Array.size_setIfInBounds]
  | fixed => rfl
  | publicInput => rfl

end Matrix

end ScriptCircuit
