import Mathlib
import ScriptCircuit.Plonk.Check
import ScriptCircuit.Proofs.Plonk.Matrix

/-!
# What a check says

A check without failures says that every gate holds on every row, that every lookup finds its inputs on every row, and that
every copy constraint names two cells that agree. `read` is what the queries of a polynomial see around a row; away from the
ends of the matrix they see the rows next to it.
-/

namespace ScriptCircuit

open MatrixAux

namespace SatisfiedAux

/-- A list of computations gives its values entry by entry. -/
theorem mapM_eq_ok {α β ε : Type} {f : α → Except ε β} {xs : List α} {ys : List β} :
    xs.mapM f = .ok ys ↔ List.Forall₂ (fun x y => f x = .ok y) xs ys := by
  induction xs generalizing ys with
  | nil =>
    rw [List.mapM_nil, List.forall₂_nil_left_iff]
    exact except_ok_eq_ok
  | cons x xs ih =>
    rw [List.mapM_cons, except_bind_eq_ok]
    constructor
    · rintro ⟨y, hy, h⟩
      obtain ⟨zs, hzs, h⟩ := except_bind_eq_ok.mp h
      cases h
      exact .cons hy (ih.mp hzs)
    · intro h
      obtain ⟨y, zs, hy, hzs, rfl⟩ := List.forall₂_cons_left_iff.mp h
      exact ⟨y, hy, except_bind_eq_ok.mpr ⟨zs, ih.mpr hzs, rfl⟩⟩

/-- A loop fails as one of its rounds does. -/
theorem mapM_eq_error {α β ε : Type} {f : α → Except ε β} {xs : List α} {e : ε} (h : xs.mapM f = .error e) :
    ∃ x ∈ xs, f x = .error e := by
  induction xs with
  | nil => cases h
  | cons x xs ih =>
    rw [List.mapM_cons] at h
    rcases except_bind_eq_error.mp h with h | ⟨y, -, h⟩
    · exact ⟨x, List.mem_cons_self, h⟩
    · rcases except_bind_eq_error.mp h with h | ⟨ys, -, h⟩
      · obtain ⟨x', hx', hfails⟩ := ih h
        exact ⟨x', List.mem_cons_of_mem _ hx', hfails⟩
      · cases h

/-- Of lists related entry by entry every entry has a partner. -/
theorem exists_of_forall₂ {α β : Type} {r : α → β → Prop} {xs : List α} {ys : List β} (h : List.Forall₂ r xs ys) :
    ∀ x ∈ xs, ∃ y, r x y := by
  induction h with
  | nil => exact fun _ hx => nomatch hx
  | cons hxy _ ih => exact List.forall_mem_cons.mpr ⟨⟨_, hxy⟩, ih⟩

/-- A list has partners throughout when each of its elements has one. -/
theorem exists_forall₂_iff {α β : Type} {r : α → β → Prop} {xs : List α} :
    (∃ ys, List.Forall₂ r xs ys) ↔ ∀ x ∈ xs, ∃ y, r x y := by
  refine ⟨fun ⟨_, h⟩ => exists_of_forall₂ h, fun h => ?_⟩
  induction xs with
  | nil => exact ⟨[], .nil⟩
  | cons x xs ih =>
    obtain ⟨⟨y, hy⟩, h⟩ := List.forall_mem_cons.mp h
    obtain ⟨ys, hys⟩ := ih h
    exact ⟨y :: ys, .cons hy hys⟩

/-- A list of checks passes when each of them does. -/
theorem forM_eq_ok {α ε : Type} {f : α → Except ε Unit} {xs : List α} {u : Unit} :
    xs.forM f = .ok u ↔ ∀ x ∈ xs, f x = .ok () := by
  induction xs with
  | nil => simp [List.forM, pure, Except.pure]
  | cons x xs ih =>
    change (f x >>= fun _ => xs.forM f) = .ok u ↔ _
    rw [except_bind_eq_ok, List.forall_mem_cons, ← ih]
    exact ⟨fun ⟨_, h, h'⟩ => ⟨h, h'⟩, fun ⟨h, h'⟩ => ⟨(), h, h'⟩⟩

theorem discard_eq_ok {α ε : Type} {x : Except ε α} : (discard x : Except ε Unit) = .ok () ↔ ∃ a, x = .ok a := by
  cases x <;> simp [discard, Functor.discard, Functor.mapConst, Except.map]

theorem reduceOption_eq_nil {α : Type} {xs : List (Option α)} : xs.reduceOption = [] ↔ ∀ x ∈ xs, x = none := by
  simp [List.reduceOption, List.filterMap_eq_nil_iff]

/-- A set filled with the images of a list contains these images. -/
theorem contains_foldl {α : Type} (xs : List α) (f : α → List Felt) (s : Std.HashSet (List Felt)) (key : List Felt) :
    (xs.foldl (fun s x => s.insert (f x)) s).contains key = true ↔ s.contains key = true ∨ ∃ x ∈ xs, f x = key := by
  induction xs generalizing s with
  | nil => simp
  | cons x xs ih =>
    rw [List.foldl_cons, ih, Std.HashSet.contains_insert, Bool.or_eq_true, beq_iff_eq]
    simp only [List.exists_mem_cons_iff]
    tauto

end SatisfiedAux

open SatisfiedAux

/-- All polynomials of a gate vanish where `read` gives the queried cells. -/
def Gate.Holds (g : Gate) (read : Column → Int → Felt) : Prop :=
  ∀ e ∈ g.polys, e.eval read = 0

/-- A witness with other advice; the fixed columns and the copy constraints stay. -/
def Witness.withAdvice (w : Witness) (advice : Array (Vector Felt w.matrix.rows)) : Witness :=
  { w with matrix := w.matrix.withAdvice advice }

namespace Claim

/-- A claim is made exactly of one list of values per instance column, none longer than the matrix. -/
theorem make_eq_ok {sys : System} {w : Witness} {instances : List (List Felt)} {c : Claim} :
    make sys w instances = .ok c ↔
      instances.length = sys.instanceCount ∧ (∀ values ∈ instances, values.length ≤ w.matrix.rows) ∧
        c = ⟨sys, w, (instances.map List.toArray).toArray⟩ := by
  unfold make
  by_cases hcount : instances.length ≠ sys.instanceCount
  · rw [if_pos hcount]
    exact iff_of_false (by nofun) fun h => hcount h.1
  · rw [if_neg hcount]
    by_cases hlong : (instances.any fun values => w.matrix.rows < values.length) = true
    · rw [if_pos hlong]
      refine iff_of_false (by nofun) fun h => ?_
      obtain ⟨values, hvalues, hlt⟩ := List.any_eq_true.mp hlong
      exact Nat.not_lt.mpr (h.2.1 values hvalues) (of_decide_eq_true hlt)
    · rw [if_neg hlong]
      have hshort : ∀ values ∈ instances, values.length ≤ w.matrix.rows := by
        intro values hvalues
        by_contra hlt
        exact hlong (List.any_eq_true.mpr ⟨values, hvalues, decide_eq_true (Nat.not_le.mp hlt)⟩)
      constructor
      · intro h
        cases h
        exact ⟨not_not.mp hcount, hshort, rfl⟩
      · rintro ⟨-, -, rfl⟩
        rfl

/-- What queries see around a row. -/
def read (c : Claim) (row : Nat) (column : Column) (rotation : Int) : Felt :=
  c.value column (c.rotate row rotation)

/-- A polynomial is evaluated on the cells around its row. -/
theorem eval_eq (c : Claim) (row : Nat) (e : Expr) : c.eval row e = e.eval (c.read row) :=
  rfl

/-- A query that stays inside the matrix sees the row it names. -/
theorem read_of_inside (c : Claim) {row row' : Nat} {rotation : Int} (column : Column) (h : (row : Int) + rotation = row')
    (hrow : row' < c.rows) : c.read row column rotation = c.value column row' := by
  have hmod : (row' : Int) % (c.rows : Int) = row' := Int.emod_eq_of_lt (by omega) (by omega)
  rw [read, rotate, h, hmod, Int.toNat_natCast]

/-- A query without a rotation sees its row. -/
theorem read_zero (c : Claim) {row : Nat} (column : Column) (hrow : row < c.rows) : c.read row column 0 = c.value column row :=
  c.read_of_inside column (Int.add_zero _) hrow

/-- The inputs of a lookup are a row of its table. -/
def Finds (c : Claim) (l : Lookup) (row : Nat) : Prop :=
  ∃ row', row' < c.rows ∧ l.inputs.map (Expr.eval (c.read row)) = l.table.map fun column => c.value column row'

/-- A cell exists: a column of public values is supplied, or the matrix has the column and the row. -/
def HasCell (c : Claim) (cell : Cell) : Prop :=
  if cell.column.kind = .publicInput then cell.column.index < c.instances.size
  else cell.row < c.rows ∧ c.witness.matrix.HasColumn cell.column

/-- The cells of a copy constraint exist and agree. -/
def Agrees (c : Claim) (copy : Copy) : Prop :=
  c.HasCell copy.left ∧ c.HasCell copy.right ∧
    c.value copy.left.column copy.left.row = c.value copy.right.column copy.right.row

/-! ## Gates -/

/-- A gate has no failures when it holds on every row. -/
theorem gateFailures_eq_nil (c : Claim) (g : Gate) :
    c.gateFailures g = [] ↔ ∀ row, row < c.rows → g.Holds (c.read row) := by
  simp only [gateFailures, List.flatMap_eq_nil_iff, List.mem_range, List.filterMap_eq_nil_iff, Prod.forall]
  constructor
  · intro h row hrow e he
    obtain ⟨index, hindex⟩ := List.mem_iff_getElem?.mp he
    have hnone := h row hrow e index (List.mem_zipIdx_iff_getElem?.mpr hindex)
    rw [← eval_eq]
    by_contra hne
    rw [if_neg hne] at hnone
    cases hnone
  · intro h row hrow e index he
    rw [if_pos]
    exact h row hrow e (List.mem_of_getElem? (List.mem_zipIdx_iff_getElem?.mp he))

/-- A gate with one polynomial fails on the rows where the polynomial does not vanish. -/
theorem gateFailures_single (c : Claim) (name : String) (e : Expr) :
    c.gateFailures ⟨name, [e]⟩ =
      ((List.range c.rows).filter fun row => e.eval (c.read row) ≠ 0).map (Failure.gate name 0) := by
  simp only [gateFailures, List.zipIdx_singleton]
  induction List.range c.rows with
  | nil => rfl
  | cons row rest ih =>
    rw [List.flatMap_cons, ih]
    by_cases h : e.eval (c.read row) = 0
    · simp [eval_eq, h]
    · simp [eval_eq, h]

/-- The failures of a gate with one polynomial, when the rows on which it does not hold are known. -/
theorem gateFailures_eq_map (c : Claim) {name : String} {e : Expr} {start : Nat} {offsets : List Nat}
    (hsorted : offsets.Pairwise (· < ·))
    (hfails : ∀ row, row < c.rows ∧ ¬Gate.Holds ⟨name, [e]⟩ (c.read row) ↔ ∃ i ∈ offsets, row = start + i) :
    c.gateFailures ⟨name, [e]⟩ = offsets.map fun i => Failure.gate name 0 (start + i) := by
  have hfilter : ((List.range c.rows).filter fun row => e.eval (c.read row) ≠ 0) = offsets.map (start + ·) := by
    refine List.Pairwise.eq_of_mem_iff (List.pairwise_lt_range.filter _) ?_ fun row => ?_
    · exact List.pairwise_map.mpr (hsorted.imp fun hlt => Nat.add_lt_add_left hlt start)
    · have hholds : Gate.Holds ⟨name, [e]⟩ (c.read row) ↔ e.eval (c.read row) = 0 := List.forall_mem_singleton
      rw [List.mem_filter, List.mem_range, decide_eq_true_iff, Ne, ← hholds, hfails, List.mem_map]
      simp only [eq_comm]
  rw [gateFailures_single, hfilter, List.map_map]
  rfl

/-! ## Lookups -/

/-- The rows of a table are the tuples in its columns. -/
theorem contains_tableRows (c : Claim) (l : Lookup) (key : List Felt) :
    (c.tableRows l).contains key = true ↔ ∃ row, row < c.rows ∧ key = l.table.map fun column => c.value column row := by
  rw [tableRows, contains_foldl]
  simp only [Std.HashSet.contains_empty, Bool.false_eq_true, false_or, List.mem_range]
  exact ⟨fun ⟨row, h, h'⟩ => ⟨row, h, h'.symm⟩, fun ⟨row, h, h'⟩ => ⟨row, h, h'.symm⟩⟩

/-- A lookup has no failures when every row finds its tuple. -/
theorem lookupFailures_eq_nil (c : Claim) (l : Lookup) :
    c.lookupFailures l = [] ↔ ∀ row, row < c.rows → c.Finds l row := by
  simp only [lookupFailures, List.filterMap_eq_nil_iff, List.mem_range]
  refine forall_congr' fun row => forall_congr' fun _ => ?_
  have hfinds := c.contains_tableRows l (l.inputs.map (c.eval row))
  by_cases h : (c.tableRows l).contains (l.inputs.map (c.eval row)) = true
  · rw [if_pos h]
    exact iff_of_true rfl (hfinds.mp h)
  · rw [if_neg h]
    exact iff_of_false (by nofun) fun h' => h (hfinds.mpr h')

/-! ## Copy constraints -/

/-- A cell has a value exactly when it exists. -/
theorem cellValue_eq_ok (c : Claim) (cell : Cell) (x : Felt) :
    c.cellValue cell = .ok x ↔ c.HasCell cell ∧ x = c.value cell.column cell.row := by
  unfold cellValue HasCell
  by_cases hkind : cell.column.kind = .publicInput
  · rw [if_pos hkind, if_pos hkind]
    by_cases hindex : cell.column.index < c.instances.size
    · simp [hindex, pure, Except.pure, eq_comm]
    · simp [hindex, throw, throwThe, MonadExceptOf.throw]
  · rw [if_neg hkind, if_neg hkind, Matrix.get, except_bind_eq_ok, value, if_neg hkind]
    constructor
    · rintro ⟨⟨⟩, h, h'⟩
      cases h'
      exact ⟨(Matrix.checkCell_eq_ok ..).mp h, rfl⟩
    · rintro ⟨h, rfl⟩
      exact ⟨(), (Matrix.checkCell_eq_ok ..).mpr h, rfl⟩

/-- A copy constraint has no failure when its cells exist and agree. -/
theorem copyFailure_eq_none (c : Claim) (copy : Copy) : c.copyFailure copy = .ok none ↔ c.Agrees copy := by
  rw [copyFailure, except_bind_eq_ok]
  simp only [except_bind_eq_ok, cellValue_eq_ok]
  constructor
  · rintro ⟨right, ⟨hr, rfl⟩, left, ⟨hl, rfl⟩, h⟩
    refine ⟨hl, hr, ?_⟩
    by_contra hne
    rw [if_neg hne] at h
    cases h
  · rintro ⟨hl, hr, h⟩
    refine ⟨_, ⟨hr, rfl⟩, _, ⟨hl, rfl⟩, ?_⟩
    rw [if_pos h]
    rfl

/-! ## The whole check -/

/-- The tables of all lookups exist. -/
def HasTables (c : Claim) : Prop :=
  ∀ l ∈ c.system.lookups, ∀ column ∈ l.table, c.witness.matrix.HasColumn column

/-- The failures are those of the gates, of the lookups and of the copy constraints, in this order. -/
theorem failures_eq_ok (c : Claim) (fs : List Failure) :
    c.failures = .ok fs ↔
      c.HasTables ∧ ∃ copies, List.Forall₂ (fun copy f => c.copyFailure copy = .ok f) c.witness.copies copies ∧
        fs = c.system.gates.flatMap c.gateFailures ++ c.system.lookups.flatMap c.lookupFailures ++ copies.reduceOption := by
  have hlookups : ∀ results, c.system.lookups.mapM (fun l => do
      l.table.forM fun column => discard (c.witness.matrix.column column)
      return c.lookupFailures l) = .ok results ↔ c.HasTables ∧ results = c.system.lookups.map c.lookupFailures := by
    intro results
    rw [mapM_eq_ok, HasTables]
    simp only [except_bind_eq_ok, forM_eq_ok, discard_eq_ok, Matrix.column_isOk]
    induction c.system.lookups generalizing results with
    | nil => simp [List.forall₂_nil_left_iff]
    | cons l ls ih =>
      rw [List.forall₂_cons_left_iff, List.forall_mem_cons, List.map_cons]
      constructor
      · rintro ⟨_, rest, ⟨⟨⟩, htable, h⟩, hrest, rfl⟩
        cases h
        obtain ⟨htables, rfl⟩ := (ih rest).mp hrest
        exact ⟨⟨htable, htables⟩, rfl⟩
      · rintro ⟨⟨htable, hrest⟩, rfl⟩
        exact ⟨_, _, ⟨(), htable, rfl⟩, (ih _).mpr ⟨hrest, rfl⟩, rfl⟩
  rw [failures]
  simp only [except_bind_eq_ok, hlookups, mapM_eq_ok]
  constructor
  · rintro ⟨_, ⟨htables, rfl⟩, copies, hcopies, h⟩
    cases h
    exact ⟨htables, copies, hcopies, by rw [List.flatMap_def (l := c.system.lookups)]⟩
  · rintro ⟨htables, copies, hcopies, rfl⟩
    refine ⟨_, ⟨htables, rfl⟩, copies, hcopies, ?_⟩
    rw [List.flatMap_def (l := c.system.lookups)]
    rfl

/-- When all copy constraints agree, gates and lookups alone fail. -/
theorem failures_of_agrees (c : Claim) (htables : c.HasTables) (hcopies : ∀ copy ∈ c.witness.copies, c.Agrees copy) :
    c.failures = .ok (c.system.gates.flatMap c.gateFailures ++ c.system.lookups.flatMap c.lookupFailures) := by
  rw [failures_eq_ok]
  refine ⟨htables, List.replicate c.witness.copies.length none, ?_, ?_⟩
  · generalize c.witness.copies = copies at hcopies
    induction copies with
    | nil => exact .nil
    | cons copy copies ih =>
      rw [List.forall_mem_cons] at hcopies
      exact .cons ((c.copyFailure_eq_none copy).mpr hcopies.1) (ih hcopies.2)
  · rw [reduceOption_eq_nil.mpr fun x hx => List.eq_of_mem_replicate hx, List.append_nil]

/-- A check has no failures exactly when all gates hold, all lookups find their inputs and all copy constraints agree. -/
theorem failures_eq_nil (c : Claim) :
    c.failures = .ok [] ↔
      c.HasTables ∧ (∀ g ∈ c.system.gates, ∀ row, row < c.rows → g.Holds (c.read row)) ∧
        (∀ l ∈ c.system.lookups, ∀ row, row < c.rows → c.Finds l row) ∧ ∀ copy ∈ c.witness.copies, c.Agrees copy := by
  constructor
  · intro h
    obtain ⟨htables, copies, hcopies, h⟩ := (c.failures_eq_ok []).mp h
    obtain ⟨hchecks, hreduce⟩ := List.append_eq_nil_iff.mp h.symm
    obtain ⟨hgates, hlookups⟩ := List.append_eq_nil_iff.mp hchecks
    rw [List.flatMap_eq_nil_iff] at hgates hlookups
    refine ⟨htables, fun g hg => (c.gateFailures_eq_nil g).mp (hgates g hg),
      fun l hl => (c.lookupFailures_eq_nil l).mp (hlookups l hl), ?_⟩
    rw [reduceOption_eq_nil] at hreduce
    intro copy hcopy
    rw [← copyFailure_eq_none]
    clear h hchecks hgates hlookups
    generalize c.witness.copies = all at hcopies hcopy
    induction hcopies with
    | nil => cases hcopy
    | cons hf _ ih =>
      rw [List.forall_mem_cons] at hreduce
      rcases List.mem_cons.mp hcopy with rfl | hcopy
      · rw [hf, hreduce.1]
      · exact ih hreduce.2 hcopy
  · rintro ⟨htables, hgates, hlookups, hcopies⟩
    rw [failures_of_agrees c htables hcopies, Except.ok.injEq, List.append_eq_nil_iff, List.flatMap_eq_nil_iff,
      List.flatMap_eq_nil_iff]
    exact ⟨fun g hg => (c.gateFailures_eq_nil g).mpr (hgates g hg),
      fun l hl => (c.lookupFailures_eq_nil l).mpr (hlookups l hl)⟩

end Claim

end ScriptCircuit
