import Mathlib
import ScriptCircuit.Proofs.Plonk.Plan

/-!
# The effect of a call

A call on a region writes some cells and makes some copy constraints before it ends, well or not. Which ones, and how it
ends, depends on the rows of the region and on the shape of the matrix, but not on what the matrix holds: no call reads a
cell. So writes by calls on regions without common rows can be done in any order.
-/

namespace ScriptCircuit

namespace Matrix

/-- A cell below the matrix is refused for its row, whatever its column. -/
theorem checkCell_of_rows_le {m : Matrix} {row : Nat} (hrow : m.rows ≤ row) (c : Column) :
    m.checkCell c row = .error (.rowOutside row m.rows) := by
  rw [checkCell, if_pos hrow]
  rfl

/-- A cell of an instance column is refused once its row is there. -/
theorem checkCell_of_publicInput {m : Matrix} {c : Column} {row : Nat} (hrow : ¬m.rows ≤ row) (hkind : c.kind = .publicInput) :
    m.checkCell c row = .error .instanceNotAssigned := by
  rw [checkCell, if_neg hrow, column, if_pos hkind]
  rfl

/-- A column the matrix does not have is not found. -/
theorem column?_eq_none {m : Matrix} {c : Column} (hcolumn : ¬m.HasColumn c) : m.column? c = none := by
  obtain ⟨kind, index⟩ := c
  cases kind with
  | advice => exact Array.getElem?_eq_none (Nat.not_lt.mp hcolumn)
  | fixed => exact Array.getElem?_eq_none (Nat.not_lt.mp hcolumn)
  | publicInput => rfl

/-- A cell of an unknown column is refused once its row is there. -/
theorem checkCell_of_not_hasColumn {m : Matrix} {c : Column} {row : Nat} (hrow : ¬m.rows ≤ row) (hkind : c.kind ≠ .publicInput)
    (hcolumn : ¬m.HasColumn c) : m.checkCell c row = .error (.unknownColumn c) := by
  rw [checkCell, if_neg hrow, column, if_neg hkind, column?_eq_none hcolumn]
  rfl

/-- Two matrices with the same number of rows and the same columns. -/
def SameShape (m m' : Matrix) : Prop :=
  m'.rows = m.rows ∧ ∀ c, m'.HasColumn c ↔ m.HasColumn c

theorem sameShape_writeAll (m : Matrix) (cells : List (Column × Nat × Felt)) : m.SameShape (m.writeAll cells) :=
  ⟨m.rows_writeAll cells, m.hasColumn_writeAll cells⟩

theorem SameShape.trans {m m' m'' : Matrix} (h : m.SameShape m') (h' : m'.SameShape m'') : m.SameShape m'' :=
  ⟨h'.1.trans h.1, fun c => (h'.2 c).trans (h.2 c)⟩

/-- The check of a cell depends on the shape alone. -/
theorem SameShape.checkCell_eq {m m' : Matrix} (h : m.SameShape m') (c : Column) (row : Nat) :
    m'.checkCell c row = m.checkCell c row := by
  obtain ⟨hrows, hcolumns⟩ := h
  by_cases hrow : m.rows ≤ row
  · rw [checkCell_of_rows_le hrow, checkCell_of_rows_le (hrows ▸ hrow), hrows]
  · have hrow' : ¬m'.rows ≤ row := hrows ▸ hrow
    by_cases hkind : c.kind = .publicInput
    · rw [checkCell_of_publicInput hrow hkind, checkCell_of_publicInput hrow' hkind]
    · by_cases hcolumn : m.HasColumn c
      · have hok := (m.checkCell_eq_ok c row).mpr ⟨Nat.not_le.mp hrow, hcolumn⟩
        have hok' := (m'.checkCell_eq_ok c row).mpr ⟨Nat.not_le.mp hrow', (hcolumns c).mpr hcolumn⟩
        rw [hok, hok']
      · rw [checkCell_of_not_hasColumn hrow hkind hcolumn,
          checkCell_of_not_hasColumn hrow' hkind fun h => hcolumn ((hcolumns c).mp h)]

/-! ## Writes to different rows -/

/-- Writes to different rows of a block of columns can be exchanged. -/
theorem modify_comm {rows row row' : Nat} (block : Array (Vector Felt rows)) (index index' : Nat) (x y : Felt)
    (h : row ≠ row') :
    (block.modify index (·.setIfInBounds row x)).modify index' (·.setIfInBounds row' y) =
      (block.modify index' (·.setIfInBounds row' y)).modify index (·.setIfInBounds row x) := by
  refine Array.ext_getElem? fun i => ?_
  simp only [Array.getElem?_modify]
  by_cases hi : index = i
  · by_cases hi' : index' = i
    · simp only [if_pos hi, if_pos hi', Option.map_map]
      refine congrArg (Option.map · block[i]?) (funext fun values => ?_)
      refine Vector.toArray_inj.mp ?_
      simp only [Function.comp, Vector.toArray_setIfInBounds]
      exact Array.setIfInBounds_comm x y h
    · simp only [if_pos hi, if_neg hi']
  · simp only [if_neg hi]

/-- Writes to different rows can be exchanged. -/
theorem write_comm (m : Matrix) (c c' : Column) {row row' : Nat} (x y : Felt) (h : row ≠ row') :
    (m.write c row x).write c' row' y = (m.write c' row' y).write c row x := by
  obtain ⟨kind, index⟩ := c
  obtain ⟨kind', index'⟩ := c'
  cases kind <;> cases kind' <;> simp only [write]
  · rw [modify_comm m.advice index index' x y h]
  · rw [modify_comm m.fixed index index' x y h]

/-- A write can be exchanged with writes to other rows. -/
theorem write_writeAll_comm (m : Matrix) (c : Column) {row : Nat} (x : Felt) {cells : List (Column × Nat × Felt)}
    (h : ∀ cell ∈ cells, row ≠ cell.2.1) : (m.write c row x).writeAll cells = (m.writeAll cells).write c row x := by
  induction cells generalizing m with
  | nil => rfl
  | cons cell cells ih =>
    rw [List.forall_mem_cons] at h
    rw [writeAll_cons, writeAll_cons, m.write_comm c cell.1 x cell.2.2 h.1, ih _ h.2]

/-- Lists of writes without a common row can be exchanged. -/
theorem writeAll_comm (m : Matrix) {cells cells' : List (Column × Nat × Felt)}
    (h : ∀ cell ∈ cells, ∀ cell' ∈ cells', cell.2.1 ≠ cell'.2.1) :
    (m.writeAll cells).writeAll cells' = (m.writeAll cells').writeAll cells := by
  induction cells generalizing m with
  | nil => rfl
  | cons cell cells ih =>
    rw [List.forall_mem_cons] at h
    rw [writeAll_cons, writeAll_cons, ih _ h.2, m.write_writeAll_comm cell.1 cell.2.2 h.1]

/-- A row that no write names is read as before. -/
theorem get_writeAll_of_forall_ne (m : Matrix) {cells : List (Column × Nat × Felt)} {row : Nat} (c : Column)
    (h : ∀ cell ∈ cells, cell.2.1 ≠ row) : (m.writeAll cells).get c row = m.get c row := by
  have hvalue : (m.writeAll cells).value c row = m.value c row :=
    m.value_writeAll_of_forall_ne cells c row fun x hx => h _ hx rfl
  rw [get, get, (m.sameShape_writeAll cells).checkCell_eq, hvalue]

end Matrix

/-! ## Effects -/

/-- What work on a region does: how it ends, the cells it writes and the copy constraints it makes. -/
structure Effect (α : Type) where
  result : Except Error α
  cells : List (Column × Nat × Felt)
  copies : List Copy

/-- The cells lie in the region and the columns of the copy constraints are enabled. -/
structure Effect.Within {α : Type} (e : Effect α) (sys : System) (r : Region) : Prop where
  cells : ∀ cell ∈ e.cells, r.Covers cell.2.1
  copies : ∀ copy ∈ e.copies, sys.Links copy.left.column copy.right.column

/-- A region with more copy constraints. -/
def Region.link (r : Region) (copies : List Copy) : Region :=
  { r with copies := r.copies ++ copies }

theorem Region.link_nil (r : Region) : r.link [] = r := by
  simp [link]

/-- Copy constraints are added one list behind the other. -/
theorem Region.link_link (r : Region) (copies copies' : List Copy) : (r.link copies).link copies' = r.link (copies ++ copies') := by
  simp [link]

namespace Filling

/-- Two states of work on one region, with matrices of the same shape. -/
structure Like (s t : Filling) : Prop where
  name : t.region.name = s.region.name
  start : t.region.start = s.region.start
  height : t.region.height = s.region.height
  shape : s.matrix.SameShape t.matrix

/-- The state after cells are written and copy constraints are made. -/
def wrote (s : Filling) (cells : List (Column × Nat × Felt)) (copies : List Copy) : Filling where
  region := s.region.link copies
  matrix := s.matrix.writeAll cells

/-- Nothing written and nothing linked leaves the state. -/
theorem wrote_nil (s : Filling) : s.wrote [] [] = s := by
  rw [wrote, Region.link_nil, Matrix.writeAll_nil]

/-- What is written and linked behind something else is written and linked together with it. -/
theorem wrote_wrote (s : Filling) (cells cells' : List (Column × Nat × Felt)) (copies copies' : List Copy) :
    (s.wrote cells copies).wrote cells' copies' = s.wrote (cells ++ cells') (copies ++ copies') := by
  simp only [wrote, Region.link_link, Matrix.writeAll_append]

/-- Writes and copy constraints keep what effects depend on. -/
theorem Like.wrote {s t : Filling} (h : s.Like t) (cells : List (Column × Nat × Felt)) (copies : List Copy) :
    s.Like (t.wrote cells copies) :=
  ⟨h.name, h.start, h.height, h.shape.trans (t.matrix.sameShape_writeAll cells)⟩

end Filling

namespace Fill

variable {α β : Type} {sys : System} {s : Filling}

/-- Work has an effect in all states that are like a state. -/
def Acts (work : Fill α) (sys : System) (s : Filling) (e : Effect α) : Prop :=
  e.Within sys s.region ∧ ∀ t, s.Like t → work.run t = (e.result, t.wrote e.cells e.copies)

/-- Work has effects that do not depend on what the matrix holds, in every region whose rows are words. -/
def Blind (work : Fill α) (sys : System) : Prop :=
  ∀ s : Filling, s.region.start + s.region.height ≤ UInt64.size → ∃ e, work.Acts sys s e

/-- Work that writes and links nothing. -/
theorem acts_quiet {work : Fill α} {result : Except Error α} (h : ∀ t, s.Like t → work.run t = (result, t)) :
    work.Acts sys s ⟨result, [], []⟩ := by
  refine ⟨⟨by simp, by simp⟩, fun t ht => ?_⟩
  rw [h t ht, Filling.wrote_nil]

theorem acts_pure (a : α) : (pure a : Fill α).Acts sys s ⟨.ok a, [], []⟩ :=
  acts_quiet fun _ _ => rfl

/-- Work that fails ends a sequence. -/
theorem Acts.bind_error {work : Fill α} {cells : List (Column × Nat × Felt)} {copies : List Copy} {err : Error}
    (h : work.Acts sys s ⟨.error err, cells, copies⟩) (f : α → Fill β) :
    (work >>= f).Acts sys s ⟨.error err, cells, copies⟩ := by
  refine ⟨⟨h.1.cells, h.1.copies⟩, fun t ht => ?_⟩
  rw [run_bind, h.2 t ht]

/-- The effects of work that ends well and of what follows it are put together. -/
theorem Acts.bind_ok {work : Fill α} {f : α → Fill β} {cells : List (Column × Nat × Felt)} {copies : List Copy} {a : α}
    {e : Effect β} (h : work.Acts sys s ⟨.ok a, cells, copies⟩) (h' : (f a).Acts sys s e) :
    (work >>= f).Acts sys s ⟨e.result, cells ++ e.cells, copies ++ e.copies⟩ := by
  refine ⟨⟨List.forall_mem_append.mpr ⟨h.1.cells, h'.1.cells⟩, List.forall_mem_append.mpr ⟨h.1.copies, h'.1.copies⟩⟩,
    fun t ht => ?_⟩
  rw [run_bind, h.2 t ht, ← Filling.wrote_wrote]
  exact h'.2 _ (ht.wrote cells copies)

/-- A sequence of works that do not look at the matrix does not look at it. -/
theorem Blind.bind {work : Fill α} {f : α → Fill β} (h : work.Blind sys) (h' : ∀ a, (f a).Blind sys) :
    (work >>= f).Blind sys := by
  intro s hs
  obtain ⟨⟨result, cells, copies⟩, hwork⟩ := h s hs
  cases result with
  | error err => exact ⟨_, hwork.bind_error f⟩
  | ok a =>
    obtain ⟨e, he⟩ := h' a s hs
    exact ⟨_, hwork.bind_ok he⟩

/-- Doing nothing does not look at the matrix. -/
theorem blind_pure (a : α) : (pure a : Fill α).Blind sys :=
  fun _ _ => ⟨_, acts_pure a⟩

/-- A demand that looks at nothing but the name of the region. -/
theorem blind_require {check : Region → Except Error Unit} (h : ∀ r r', r'.name = r.name → check r' = check r) :
    (require check).Blind sys := by
  intro s _
  refine ⟨⟨check s.region, [], []⟩, acts_quiet fun t ht => ?_⟩
  change (check t.region, t) = (check s.region, t)
  rw [h s.region t.region ht.name]

/-- An offset outside the region is refused. -/
theorem acts_place_outside {offset : Nat} (h : s.region.height ≤ offset) :
    (place offset).Acts sys s ⟨.error (.offsetOutside s.region.name offset s.region.height), [], []⟩ := by
  refine acts_quiet fun t ht => ?_
  change (if t.region.height ≤ offset then _ else _ : Except Error Nat × Filling) = _
  rw [ht.height, if_pos h, ht.name]
  rfl

/-- An offset inside the region is given its row. -/
theorem acts_place {offset : Nat} (h : ¬s.region.height ≤ offset) :
    (place offset).Acts sys s ⟨.ok (s.region.row offset), [], []⟩ := by
  refine acts_quiet fun t ht => ?_
  change (if t.region.height ≤ offset then _ else _ : Except Error Nat × Filling) = _
  rw [ht.height, if_neg h, Region.row, ht.start]
  rfl

/-- A write in the region has an effect, whether the matrix has the cell or not. -/
theorem exists_acts_write {row : Nat} (hrow : s.region.Covers row) (c : Column) (x : Felt) :
    ∃ e, (write c row x).Acts sys s e := by
  cases hcheck : s.matrix.checkCell c row with
  | error err =>
    refine ⟨⟨.error err, [], []⟩, acts_quiet fun t ht => ?_⟩
    change write c row x t = _
    rw [write, ht.shape.checkCell_eq, hcheck]
    rfl
  | ok u =>
    refine ⟨⟨.ok (), [(c, row, x)], []⟩, ⟨List.forall_mem_singleton.mpr hrow, by simp⟩, fun t ht => ?_⟩
    change write c row x t = _
    rw [write, ht.shape.checkCell_eq, hcheck, Filling.wrote, Region.link_nil]
    rfl

/-- An assignment writes a row of its region or none. -/
theorem blind_assign (c : Column) (offset : Nat) (x : Felt) : (assign c offset x).Blind sys := by
  intro s hs
  by_cases hoffset : s.region.height ≤ offset
  · exact ⟨_, (acts_place_outside hoffset).bind_error _⟩
  · have hplace : (place offset).Acts sys s _ := acts_place hoffset
    have hrow : s.region.row offset = s.region.start + offset := Nat.mod_eq_of_lt (by omega)
    have hcovers : s.region.Covers (s.region.row offset) := by
      rw [hrow]
      exact ⟨Nat.le_add_right .., by omega⟩
    have hexists : ∃ e, (write c (s.region.row offset) x).Acts sys s e := exists_acts_write hcovers c x
    obtain ⟨⟨result, cells, copies⟩, hwrite⟩ := hexists
    cases result with
    | error err => exact ⟨_, hplace.bind_ok (hwrite.bind_error _)⟩
    | ok u => exact ⟨_, hplace.bind_ok (hwrite.bind_ok (acts_pure _))⟩

/-- A copy constraint does not look at the matrix. -/
theorem blind_constrainEqual (left right : Cell) : (constrainEqual sys left right).Blind sys := by
  intro s _
  cases hcheck : sys.checkCopy ⟨left, right⟩ with
  | error err =>
    refine ⟨⟨.error err, [], []⟩, acts_quiet fun t _ => ?_⟩
    change constrainEqual sys left right t = _
    rw [constrainEqual, hcheck]
    rfl
  | ok u =>
    have hlinks : sys.Links left.column right.column := (sys.checkCopy_eq_ok _).mp hcheck
    refine ⟨⟨.ok (), [], [⟨left, right⟩]⟩, ⟨by simp, List.forall_mem_singleton.mpr hlinks⟩, fun t _ => ?_⟩
    change constrainEqual sys left right t = _
    rw [constrainEqual, hcheck, Filling.wrote, Matrix.writeAll_nil]
    rfl

/-- Assigning an advice cell does not look at the matrix. -/
theorem blind_assignAdvice (c : Column) (offset : Nat) (x : Felt) : (assignAdvice c offset x).Blind sys := by
  refine Blind.bind (blind_require fun r r' hname => ?_) fun _ => blind_assign c offset x
  rw [hname]

/-- Assigning a fixed cell does not look at the matrix. -/
theorem blind_assignFixed (c : Column) (offset : Nat) (x : Felt) : (assignFixed c offset x).Blind sys := by
  refine Blind.bind (blind_require fun r r' hname => ?_) fun _ => blind_assign c offset x
  rw [hname]

/-- Copying a cell writes the value it is given and does not look at the matrix. -/
theorem blind_copyAdvice (source : AssignedCell) (c : Column) (offset : Nat) :
    (copyAdvice sys source c offset).Blind sys :=
  (blind_assignAdvice c offset source.value).bind fun copied =>
    (blind_constrainEqual source.cell copied.cell).bind fun _ => blind_pure copied

end Fill

end ScriptCircuit
