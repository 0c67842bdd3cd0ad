import Mathlib
import ScriptCircuit.Proofs.Plonk.Calls
import ScriptCircuit.Proofs.Plonk.Exact

/-!
# When a check gives an answer

Cells that are written are looked up first, cells that are named in copy constraints are not: only their columns are asked
whether they take part in copy constraints. So a witness can hold copy constraints on cells that do not exist, and its check
ends with an error. Whether it does is decided by the calls: a check gives an answer exactly when every cell exists that a call
names in a copy constraint which reaches the witness.
-/

namespace ScriptCircuit

open MatrixAux SatisfiedAux

/-- The copy constraints that have reached the witness. -/
def Layouter.copies (l : Layouter) : List Copy :=
  match l.witness? with
  | some w => w.copies
  | none => []

theorem Layouter.copies_of_none {l : Layouter} (h : l.witness? = none) : l.copies = [] := by
  rw [copies, h]

theorem Layouter.copies_withWitness (l : Layouter) (w : Witness) : (l.withWitness w).copies = w.copies :=
  rfl

namespace LayoutCall

variable {sys : System} {call : LayoutCall} {calls : List (System × LayoutCall)} {l l' : Layouter}
variable {regions regions' : List Region} {P : Cell → Prop}

/-! ## Copy constraints on their way -/

/-- The region that keeps the copy constraint of a call until it is committed. -/
def keeper? : LayoutCall → Option Nat
  | fill i _ => some i
  | _ => none

/-- A region is committed by one of the calls. -/
def Commits (calls : List (System × LayoutCall)) (i : Nat) : Prop :=
  ∃ sys, (sys, commit i) ∈ calls

/-- Calls name a cell in a copy constraint that reaches the witness: a region that keeps it is committed later. -/
def Delivers : List (System × LayoutCall) → Cell → Prop
  | [], _ => False
  | (_, call) :: calls, cell => (cell ∈ call.named ∧ ∀ i ∈ call.keeper?, Commits calls i) ∨ Delivers calls cell

/-- A region is committed by the first call or by a later one. -/
theorem commits_cons {i : Nat} : Commits ((sys, call) :: calls) i ↔ call = .commit i ∨ Commits calls i := by
  simp only [Commits, List.mem_cons, Prod.mk.injEq, exists_or, exists_eq_left]
  exact or_congr_left eq_comm

/-- The copy constraints of the regions that calls will commit satisfy a condition. -/
def Kept (P : Cell → Prop) (regions : List Region) (calls : List (System × LayoutCall)) : Prop :=
  ∀ i r, regions[i]? = some r → Commits calls i → ∀ copy ∈ r.copies, copy.Both P

/-- The copy constraints that have reached the witness or will satisfy a condition. -/
def Holds (P : Cell → Prop) (l : Layouter) (regions : List Region) (calls : List (System × LayoutCall)) : Prop :=
  (∀ copy ∈ l.copies, copy.Both P) ∧ Kept P regions calls

/-- A call that commits nothing does not change what will be committed. -/
theorem holds_cons (sys : System) (call : LayoutCall) (h : ∀ i, call ≠ .commit i) :
    Holds P l regions ((sys, call) :: calls) ↔ Holds P l regions calls := by
  simp only [Holds, Kept, commits_cons, h, false_or]

/-- A region that has just been handed out keeps nothing. -/
theorem kept_append {r : Region} (h : r.copies = []) : Kept P (regions ++ [r]) calls ↔ Kept P regions calls := by
  constructor
  · intro hkept i s hs
    exact hkept i s (List.getElem?_append_left (List.getElem?_eq_some_iff.mp hs).1 ▸ hs)
  · intro hkept i s hs hcommits copy hcopy
    rcases Nat.lt_or_ge i regions.length with hi | hi
    · rw [List.getElem?_append_left hi] at hs
      exact hkept i s hs hcommits copy hcopy
    · rw [List.getElem?_append_right hi] at hs
      rw [List.mem_singleton.mp (List.mem_of_getElem? hs), h] at hcopy
      cases hcopy

/-- What is kept when one region changes. -/
theorem kept_set {i : Nat} {r : Region} (h : regions[i]? = some r) (r' : Region) :
    Kept P (regions.set i r') calls ↔ (Commits calls i → ∀ copy ∈ r'.copies, copy.Both P) ∧
      ∀ j s, j ≠ i → regions[j]? = some s → Commits calls j → ∀ copy ∈ s.copies, copy.Both P := by
  have hi := (List.getElem?_eq_some_iff.mp h).1
  constructor
  · intro hkept
    refine ⟨hkept i r' (List.getElem?_set_self hi), fun j s hj hs => hkept j s ?_⟩
    rwa [List.getElem?_set_ne (Ne.symm hj)]
  · rintro ⟨hself, hothers⟩ j s hs
    by_cases hj : j = i
    · subst hj
      rw [List.getElem?_set_self hi] at hs
      cases hs
      exact hself
    · rw [List.getElem?_set_ne (Ne.symm hj)] at hs
      exact hothers j s hj hs

/-- What reaches the witness splits into the copy constraints of one region and those of the others. -/
theorem kept_iff {i : Nat} {r : Region} (h : regions[i]? = some r) :
    Kept P regions calls ↔ (Commits calls i → ∀ copy ∈ r.copies, copy.Both P) ∧
      ∀ j s, j ≠ i → regions[j]? = some s → Commits calls j → ∀ copy ∈ s.copies, copy.Both P := by
  obtain ⟨hi, rfl⟩ := List.getElem?_eq_some_iff.mp h
  nth_rewrite 1 [← List.set_getElem_self hi]
  exact kept_set h _

/-- A copy constraint that goes to the witness at once. -/
theorem holds_link (l : Layouter) (m : Matrix) (copies : List Copy) (copy : Copy) :
    Holds P (l.withWitness ⟨m, copies ++ [copy]⟩) regions calls ↔
      Holds P (l.withWitness ⟨m, copies⟩) regions calls ∧ copy.Both P := by
  rw [Holds, Holds, Layouter.copies_withWitness, Layouter.copies_withWitness, List.forall_mem_append,
    List.forall_mem_singleton]
  exact and_right_comm

/-- A region that is committed gives what it keeps to the witness. -/
theorem holds_commit {i : Nat} {r : Region} (h : regions[i]? = some r) (l : Layouter) (m : Matrix) (copies : List Copy) :
    Holds P (l.withWitness ⟨m, copies ++ r.copies⟩) (regions.set i { r with copies := [] }) calls ↔
      Holds P (l.withWitness ⟨m, copies⟩) regions ((sys, .commit i) :: calls) := by
  have hself : Commits ((sys, .commit i) :: calls) i := commits_cons.mpr (.inl rfl)
  have hothers : ∀ j, j ≠ i → (Commits ((sys, .commit i) :: calls) j ↔ Commits calls j) := by
    intro j hj
    rw [commits_cons, LayoutCall.commit.injEq]
    exact or_iff_right (Ne.symm hj)
  rw [Holds, Holds, Layouter.copies_withWitness, Layouter.copies_withWitness, kept_set h, kept_iff h, List.forall_mem_append]
  constructor
  · rintro ⟨⟨hcopies, hkept⟩, -, hrest⟩
    exact ⟨hcopies, fun _ => hkept, fun j s hj hs hcommits => hrest j s hj hs ((hothers j hj).mp hcommits)⟩
  · rintro ⟨hcopies, hkept, hrest⟩
    exact ⟨⟨hcopies, hkept hself⟩, fun _ _ hcopy => (nomatch hcopy),
      fun j s hj hs hcommits => hrest j s hj hs ((hothers j hj).mpr hcommits)⟩

/-- A call on a region puts what it names on its way if the region will be committed. -/
theorem holds_fill {i : Nat} {r : Region} (h : regions[i]? = some r) {named : List Cell} {cells : List (Column × Nat × Felt)}
    {m : Matrix} {new : List Copy} (hnew : (∀ copy ∈ new, copy.Both P) ↔ ∀ cell ∈ named, P cell) (l : Layouter)
    (copies : List Copy) :
    Holds P (l.withWitness ⟨m.writeAll cells, copies⟩) (regions.set i (r.link new)) calls ↔
      Holds P (l.withWitness ⟨m, copies⟩) regions calls ∧ (Commits calls i → ∀ cell ∈ named, P cell) := by
  have hcopies : (∀ copy ∈ (r.link new).copies, copy.Both P) ↔
      (∀ copy ∈ r.copies, copy.Both P) ∧ ∀ cell ∈ named, P cell :=
    List.forall_mem_append.trans (and_congr_right fun _ => hnew)
  rw [Holds, Holds, Layouter.copies_withWitness, Layouter.copies_withWitness, kept_set h, kept_iff h, hcopies]
  tauto

/-- Nothing is on its way before the first call. -/
theorem holds_empty : Holds P ∅ [] calls :=
  ⟨fun _ hcopy => (nomatch hcopy), fun _ _ hr => (nomatch hr)⟩

/-- What one call puts on its way is what it names. -/
theorem Step.holds_iff (h : Step sys call l regions l' regions')
    (hP : ∀ w ∈ l.witness?, ∀ cell, w.matrix.HasCell cell → P cell) :
    Holds P l' regions' calls ↔ Holds P l regions ((sys, call) :: calls) ∧
      ∀ cell, (cell ∈ call.named ∧ ∀ i ∈ call.keeper?, Commits calls i) → P cell := by
  have hlink : ∀ left right : Cell, (∀ cell, (cell ∈ [left, right] ∧ ∀ i ∈ (none : Option Nat), Commits calls i) → P cell) ↔
      Copy.Both P ⟨left, right⟩ := by simp [Copy.Both]
  cases h with
  | @plan call l l' regions hnone hnone' =>
    rw [holds_cons sys (.plan call) nofun, Holds, Holds, Layouter.copies_of_none hnone, Layouter.copies_of_none hnone']
    exact (and_iff_left nofun).symm
  | allocate hnone =>
    rw [holds_cons sys .allocate nofun, Holds, Holds, Layouter.copies_of_none hnone]
    exact (and_iff_left nofun).symm
  | @region number l w regions r hr =>
    rw [holds_cons sys (.region number) nofun, Holds, kept_append hr]
    exact (and_iff_left nofun).symm
  | @fill i call l m copies regions r a t hr hwork =>
    obtain ⟨cells, new, rfl, hnew⟩ := RegionCall.wrote_of_ends hwork
    have hnamed : (∀ cell, (cell ∈ call.named ∧ ∀ j ∈ some i, Commits calls j) → P cell) ↔
        (Commits calls i → ∀ cell ∈ call.named, P cell) := by
      simp only [Option.mem_some, forall_eq']
      exact ⟨fun hall hcommits cell hcell => hall cell ⟨hcell, hcommits⟩, fun hall cell hcell => hall hcell.2 cell hcell.1⟩
    rw [holds_cons sys (.fill i call) nofun, named, keeper?, hnamed]
    exact holds_fill hr (hnew P (hP _ rfl)) l copies
  | @table name cells =>
    rw [holds_cons sys (.table name cells) nofun]
    exact (and_iff_left nofun).symm
  | commit hr =>
    rw [holds_commit hr]
    exact (and_iff_left nofun).symm
  | @constrainEqual left right l m copies regions =>
    rw [holds_cons sys (.constrainEqual left right) nofun, holds_link]
    exact and_congr_right fun _ => (hlink left right).symm
  | @constrainInstance cell column row l m copies regions =>
    rw [holds_cons sys (.constrainInstance cell column row) nofun, holds_link]
    exact and_congr_right fun _ => (hlink cell ⟨column, row⟩).symm

/-- What reaches the witness is what was on its way, and what the calls deliver. -/
theorem forall_copies_iff (h : (Synthesis.calls calls regions).Ends l regions' l')
    (hP : ∀ w ∈ l'.witness?, ∀ cell, w.matrix.HasCell cell → P cell) :
    (∀ copy ∈ l'.copies, copy.Both P) ↔ Holds P l regions calls ∧ ∀ cell, Delivers calls cell → P cell := by
  induction calls generalizing l regions with
  | nil =>
    obtain ⟨rfl, rfl⟩ := ends_calls_nil.mp h
    have hkept : Kept P regions' [] := by
      rintro i r - ⟨_, hmem⟩
      cases hmem
    rw [Holds, and_iff_left hkept]
    exact (and_iff_left nofun).symm
  | cons head calls ih =>
    obtain ⟨sys, call⟩ := head
    obtain ⟨between, l₁, hhead, hcalls⟩ := ends_calls_cons.mp h
    have hbefore : ∀ w ∈ l.witness?, ∀ cell, w.matrix.HasCell cell → P cell := by
      intro w hw cell hcell
      obtain ⟨w', hw', hshape⟩ := sameShape_of_ends h hw
      exact hP w' hw' cell ((hshape.hasCell_iff cell).mpr hcell)
    -- One step moves what is on its way, or delivers a cell of its own.
    rw [ih hcalls, (step_of_ends hhead).holds_iff hbefore, and_assoc, ← forall_and]
    refine and_congr_right fun _ => forall_congr' fun cell => ?_
    rw [Delivers, or_imp]

end LayoutCall

/-! ## The answer of a check -/

namespace System

/-- A system has grown from another one, and its gates and lookups use columns that the other one has. -/
structure QueriesWithin (sys shape : System) : Prop where
  grown : ∀ kind, shape.count kind ≤ sys.count kind
  gates : ∀ g ∈ sys.gates, ∀ e ∈ g.polys, ∀ column ∈ e.columns, column.index < shape.count column.kind
  lookups : ∀ l ∈ sys.lookups, ∀ e ∈ l.inputs, ∀ column ∈ e.columns, column.index < shape.count column.kind
  tables : ∀ l ∈ sys.lookups, ∀ column ∈ l.table, column.index < shape.count column.kind

/-- No table stands in a column of public values, which is not part of the matrix. -/
def TablesInside (sys : System) : Prop :=
  ∀ l ∈ sys.lookups, ∀ column ∈ l.table, column.kind ≠ .publicInput

end System

namespace Claim

variable {c : Claim} {e : Error}

/-- The cells of a copy constraint that is checked exist. -/
theorem both_of_copyFailure_eq_ok {copy : Copy} {f : Option Failure} (h : c.copyFailure copy = .ok f) :
    copy.Both c.HasCell := by
  obtain ⟨right, hright, h⟩ := except_bind_eq_ok.mp h
  obtain ⟨left, hleft, -⟩ := except_bind_eq_ok.mp h
  exact ⟨((c.cellValue_eq_ok ..).mp hleft).1, ((c.cellValue_eq_ok ..).mp hright).1⟩

/-- A check gives an answer only if the tables and the cells of all copy constraints exist. -/
theorem exist_of_failures_eq_ok {failures : List Failure} (h : c.failures = .ok failures) :
    c.HasTables ∧ ∀ copy ∈ c.witness.copies, copy.Both c.HasCell := by
  obtain ⟨htables, copies, hcopies, -⟩ := (c.failures_eq_ok failures).mp h
  refine ⟨htables, fun copy hcopy => ?_⟩
  obtain ⟨f, hf⟩ := exists_of_forall₂ hcopies copy hcopy
  exact both_of_copyFailure_eq_ok hf

/-- A cell that cannot be read lies outside its range. -/
theorem category_of_cellValue {cell : Cell} (h : c.cellValue cell = .error e) : e.category = .range := by
  unfold cellValue at h
  by_cases hkind : cell.column.kind = .publicInput
  · rw [if_pos hkind] at h
    split at h
    · cases h
    · cases h
      rfl
  · rw [if_neg hkind] at h
    rcases except_bind_eq_error.mp h with h | ⟨_, -, h⟩
    · by_cases hrow : c.witness.matrix.rows ≤ cell.row
      · rw [Matrix.checkCell_of_rows_le hrow] at h
        cases h
        rfl
      · by_cases hcolumn : c.witness.matrix.HasColumn cell.column
        · cases h.symm.trans ((Matrix.checkCell_eq_ok ..).mpr ⟨Nat.not_le.mp hrow, hcolumn⟩)
        · rw [Matrix.checkCell_of_not_hasColumn hrow hkind hcolumn] at h
          cases h
          rfl
    · cases h

/-- A check that ends with an error has met a cell that does not exist. -/
theorem category_of_failures (htables : c.HasTables) (h : c.failures = .error e) : e.category = .range := by
  rcases except_bind_eq_error.mp h with h | ⟨_, -, h⟩
  · obtain ⟨l, hl, h⟩ := mapM_eq_error h
    have htable : l.table.forM (fun column => discard (c.witness.matrix.column column)) = .ok () :=
      forM_eq_ok.mpr fun column hcolumn => discard_eq_ok.mpr ((Matrix.column_isOk ..).mpr (htables l hl column hcolumn))
    rw [htable] at h
    cases h
  · rcases except_bind_eq_error.mp h with h | ⟨_, -, h⟩
    · obtain ⟨copy, -, h⟩ := mapM_eq_error h
      rcases except_bind_eq_error.mp h with h | ⟨right, -, h⟩
      · exact category_of_cellValue h
      · rcases except_bind_eq_error.mp h with h | ⟨left, -, h⟩
        · exact category_of_cellValue h
        · split at h <;> cases h
    · cases h

/-- A claim has the system, the witness and as many instance columns as it was made of. -/
theorem of_make {sys : System} {w : Witness} {instances : List (List Felt)} (h : make sys w instances = .ok c) :
    c.system = sys ∧ c.witness = w ∧ c.instances.size = sys.instanceCount := by
  obtain ⟨hcount, -, rfl⟩ := make_eq_ok.mp h
  exact ⟨rfl, rfl, by simp [hcount]⟩

/-- A cell of the matrix is a cell of the claim. -/
theorem hasCell_of_matrix {cell : Cell} (h : c.witness.matrix.HasCell cell) : c.HasCell cell := by
  obtain ⟨hrow, hcolumn⟩ := h
  have hkind : cell.column.kind ≠ .publicInput := fun hkind => by simp [Matrix.HasColumn, hkind] at hcolumn
  rw [HasCell, if_neg hkind]
  exact ⟨hrow, hcolumn⟩

section

variable {shape : System} {rows : Nat}

/-- Columns exist that were there when the matrix was allocated. -/
theorem hasColumn_of_shape (hsize : c.instances.size = c.system.instanceCount)
    (hgrown : ∀ kind, shape.count kind ≤ c.system.count kind)
    (hshape : (Matrix.zero shape rows).SameShape c.witness.matrix) {column : Column}
    (h : column.index < shape.count column.kind) : c.HasColumn column := by
  unfold HasColumn
  by_cases hkind : column.kind = .publicInput
  · rw [hkind] at h
    rw [if_pos hkind, hsize]
    exact Nat.lt_of_lt_of_le h (hgrown .publicInput)
  · rw [if_neg hkind, hshape.2]
    exact (Matrix.hasColumn_zero ..).mpr ⟨hkind, h⟩

/-- For queries of columns present at allocation, the tables exist exactly when none is an instance column. -/
theorem hasTables_iff_of_shape (hquery : c.system.QueriesWithin shape)
    (hshape : (Matrix.zero shape rows).SameShape c.witness.matrix) : c.HasTables ↔ c.system.TablesInside := by
  refine forall₂_congr fun l hl => forall₂_congr fun column hcolumn => ?_
  rw [hshape.2, Matrix.hasColumn_zero]
  exact and_iff_left (hquery.tables l hl column hcolumn)

/-- When gates and lookups query columns that were there, only tables and copy constraints can name what does not exist. -/
theorem proper_iff_of_shape (hsize : c.instances.size = c.system.instanceCount) (hquery : c.system.QueriesWithin shape)
    (hshape : (Matrix.zero shape rows).SameShape c.witness.matrix) :
    c.Proper ↔ c.HasTables ∧ ∀ copy ∈ c.witness.copies, copy.Both c.HasCell := by
  have hcolumn : ∀ column : Column, column.index < shape.count column.kind → c.HasColumn column :=
    fun column => hasColumn_of_shape hsize hquery.grown hshape
  refine ⟨fun h => ⟨h.tables, h.copies⟩, fun ⟨htables, hcopies⟩ => ?_⟩
  exact
    { gates := fun g hg e he column hc => hcolumn column (hquery.gates g hg e he column hc)
      lookups := fun l hl e he column hc => hcolumn column (hquery.lookups l hl e he column hc)
      tables := htables
      copies := hcopies }

end

/-- A check of a witness that calls have built gives an answer exactly when all tables stand in the matrix and every cell exists
that the calls have named in a copy constraint on its way to the witness; then all that is read exists. Otherwise the check ends
with an error, and where the tables stand in the matrix this is a range error. -/
theorem failures_returned_iff {calls : List (System × LayoutCall)} {sys : System} {w : Witness} {l : Layouter}
    {instances : List (List Felt)} (hsession : (Synthesis.session calls).Ends ∅ w l)
    (hqueries : ∀ shape, (shape, .allocate) ∈ calls → sys.QueriesWithin shape) (hmake : make sys w instances = .ok c) :
    ((∃ failures, c.failures = .ok failures) ↔
        sys.TablesInside ∧ ∀ cell, LayoutCall.Delivers calls cell → c.HasCell cell) ∧
      ((∃ failures, c.failures = .ok failures) ↔ c.Proper) ∧
        (sys.TablesInside → ∀ e, c.failures = .error e → e.category = .range) := by
  obtain ⟨regions, _, hcalls, htake⟩ := Synthesis.ends_bind.mp hsession
  obtain ⟨l₁, w₁, rfl⟩ := Synthesis.needsWitness_take _ _ _ htake
  obtain ⟨rfl, -⟩ := Synthesis.ends_take.mp htake
  obtain ⟨rfl, rfl, hsize⟩ := of_make hmake
  obtain ⟨shape, rows, hallocate, hshape⟩ := LayoutCall.exists_allocate hcalls rfl rfl
  have hquery := hqueries shape hallocate
  have htables := hasTables_iff_of_shape hquery hshape
  have hproper := proper_iff_of_shape hsize hquery hshape
  have hreturned : (∃ failures, c.failures = .ok failures) ↔ c.Proper :=
    ⟨fun ⟨_, h⟩ => hproper.mpr (exist_of_failures_eq_ok h), fun h => ⟨_, failures_eq_found h⟩⟩
  have hcells : ∀ w ∈ (l₁.withWitness c.witness).witness?, ∀ cell, w.matrix.HasCell cell → c.HasCell cell := by
    rintro _ ⟨rfl⟩ cell
    exact hasCell_of_matrix
  have hdelivers : (∀ copy ∈ c.witness.copies, copy.Both c.HasCell) ↔
      ∀ cell, LayoutCall.Delivers calls cell → c.HasCell cell :=
    (LayoutCall.forall_copies_iff hcalls hcells).trans (and_iff_right LayoutCall.holds_empty)
  refine ⟨?_, hreturned, fun hinside e => category_of_failures (htables.mpr hinside)⟩
  rw [hreturned, hproper, htables, hdelivers]

/-- Two advice columns and a public one that are linked, with a gate and a table. -/
def twoColumns : System where
  adviceCount := 2
  fixedCount := 1
  instanceCount := 1
  equality := [⟨.advice, 0⟩, ⟨.advice, 1⟩, ⟨.publicInput, 0⟩]
  labels := []
  gates := [⟨"same", [.add (.query ⟨.advice, 0⟩ 0) (.neg (.query ⟨.advice, 1⟩ 0))]⟩]
  lookups := [⟨"small", [(.query ⟨.advice, 0⟩ 0, ⟨.fixed, 0⟩)]⟩]

/-- A value is written, copied inside its region and bound to a public value. -/
def copyingCalls : List (System × LayoutCall) :=
  [(twoColumns, .plan (.region "copies" 1)), (twoColumns, .plan (.table "small" 1)), (twoColumns, .allocate),
    (twoColumns, .region 0), (twoColumns, .fill 0 (.assignAdvice ⟨.advice, 0⟩ 0 (.ofNat 5))),
    (twoColumns, .fill 0 (.copyAdvice ⟨⟨⟨.advice, 0⟩, 0⟩, .ofNat 5⟩ ⟨.advice, 1⟩ 0)),
    (twoColumns, .table "small" [(⟨.fixed, 0⟩, 0, .ofNat 5)]), (twoColumns, .commit 0),
    (twoColumns, .constrainInstance ⟨⟨.advice, 0⟩, 0⟩ ⟨.publicInput, 0⟩ 0)]

/-- What is checked then. -/
def copied : Claim where
  system := twoColumns
  witness :=
    { matrix := { rows := 1, advice := #[#v[.ofNat 5], #v[.ofNat 5]], fixed := #[#v[.ofNat 5]] },
      copies := [⟨⟨⟨.advice, 0⟩, 0⟩, ⟨⟨.advice, 1⟩, 0⟩⟩, ⟨⟨⟨.advice, 0⟩, 0⟩, ⟨⟨.publicInput, 0⟩, 0⟩⟩] }
  instances := #[#[.ofNat 5]]

/-- The calls that copy a value end well, and the check of what they built returns a list. -/
theorem failures_returned_iff_copied :
    (Synthesis.session copyingCalls).Ends ∅ copied.witness ⟨[⟨"copies", 0, 1⟩], 1, 1, none⟩ ∧
    (∀ shape, (shape, .allocate) ∈ copyingCalls → twoColumns.QueriesWithin shape) ∧
    make twoColumns copied.witness [[.ofNat 5]] = .ok copied ∧
    ((∃ failures, copied.failures = .ok failures) ↔
      twoColumns.TablesInside ∧ ∀ cell, LayoutCall.Delivers copyingCalls cell → copied.HasCell cell) ∧
    ((∃ failures, copied.failures = .ok failures) ↔ copied.Proper) ∧
    (twoColumns.TablesInside → ∀ e, copied.failures = .error e → e.category = .range) := by
  have hsession : (Synthesis.session copyingCalls).Ends ∅ copied.witness ⟨[⟨"copies", 0, 1⟩], 1, 1, none⟩ := rfl
  have hqueries : ∀ shape, (shape, .allocate) ∈ copyingCalls → twoColumns.QueriesWithin shape := by
    intro shape hmem
    obtain rfl : shape = twoColumns := by simpa [copyingCalls] using hmem
    refine ⟨fun kind => Nat.le_refl _, ?_, ?_, ?_⟩ <;>
      simp [twoColumns, Lookup.inputs, Lookup.table, Expr.columns, System.count]
  have hmake : make twoColumns copied.witness [[.ofNat 5]] = .ok copied := rfl
  exact ⟨hsession, hqueries, hmake, failures_returned_iff hsession hqueries hmake⟩

/-- One advice column that takes part in copy constraints. -/
def oneColumn : System where
  adviceCount := 1
  fixedCount := 0
  instanceCount := 0
  equality := [⟨.advice, 0⟩]
  labels := []
  gates := []
  lookups := []

/-- A cell is linked to the cell below it in a matrix of one row. -/
def linkingCalls : List (System × LayoutCall) :=
  [(oneColumn, .plan (.region "r" 1)), (oneColumn, .allocate),
    (oneColumn, .constrainEqual ⟨⟨.advice, 0⟩, 0⟩ ⟨⟨.advice, 0⟩, 1⟩)]

/-- What is checked then. -/
def linked : Claim where
  system := oneColumn
  witness :=
    { matrix := { rows := 1, advice := #[#v[0]], fixed := #[] },
      copies := [⟨⟨⟨.advice, 0⟩, 0⟩, ⟨⟨.advice, 0⟩, 1⟩⟩] }
  instances := #[]

/-- Calls that all end well do not make sure that the check gives an answer. -/
theorem failures_returned_false : ¬∀ (calls : List (System × LayoutCall)) (sys : System) (w : Witness) (l : Layouter)
    (instances : List (List Felt)) (c : Claim), (Synthesis.session calls).Ends ∅ w l →
      (∀ shape, (shape, .allocate) ∈ calls → sys.QueriesWithin shape) → make sys w instances = .ok c →
        ∃ failures, c.failures = .ok failures := by
  intro hreturned
  have hsession : (Synthesis.session linkingCalls).Ends ∅ linked.witness ⟨[⟨"r", 0, 1⟩], 1, 0, none⟩ := rfl
  have hqueries : ∀ shape, (shape, .allocate) ∈ linkingCalls → oneColumn.QueriesWithin shape := by
    intro shape hmem
    obtain rfl : shape = oneColumn := by simpa [linkingCalls] using hmem
    exact ⟨fun kind => Nat.le_refl _, nofun, nofun, nofun⟩
  have hmake : make oneColumn linked.witness [] = .ok linked := rfl
  have herror : linked.failures = .error (.rowOutside 1 1) := rfl
  obtain ⟨failures, h⟩ := hreturned linkingCalls oneColumn _ _ [] linked hsession hqueries hmake
  cases herror.symm.trans h

end Claim

end ScriptCircuit
