import Mathlib
import ScriptCircuit.Proofs.Plonk.Frame
import ScriptCircuit.Proofs.Plonk.Plan

/-!
# Calls on a layouter

A layouter is used call by call: regions and tables are planned, the matrix is allocated, regions are handed out, filled and
committed, tables are written, cells are linked, and the witness is taken at the end. One step relation says what a call that
ends well does. The matrix keeps the cells it was allocated with, whatever is called.
-/

namespace ScriptCircuit

/-- The matrix has the row and the column of a cell. -/
def Matrix.HasCell (m : Matrix) (cell : Cell) : Prop :=
  cell.row < m.rows ∧ m.HasColumn cell.column

theorem Matrix.SameShape.hasCell_iff {m m' : Matrix} (h : m.SameShape m') (cell : Cell) : m'.HasCell cell ↔ m.HasCell cell := by
  rw [HasCell, HasCell, h.1, h.2]

/-- Both cells of a copy constraint satisfy a condition. -/
def Copy.Both (P : Cell → Prop) (copy : Copy) : Prop :=
  P copy.left ∧ P copy.right

/-! ## Calls -/

/-- The cells that a call on a region names in a copy constraint and does not look up. -/
def RegionCall.named : RegionCall → List Cell
  | copyAdvice source .. => [source.cell]
  | constrainEqual left right => [left, right]
  | _ => []

/-- A call on a layouter or on a region. Regions are numbered in the order in which they are handed out. -/
inductive LayoutCall where
  | plan (call : PlanCall)
  | allocate
  | region (number : Nat)
  | fill (i : Nat) (call : RegionCall)
  | table (name : String) (cells : List (Column × Nat × Felt))
  | commit (i : Nat)
  | constrainEqual (left right : Cell)
  | constrainInstance (cell : Cell) (column : Column) (row : Nat)

/-- Works on one of the regions that are handed out. -/
def Synthesis.onRegion (regions : List Region) (i : Nat) (work : Region → Synthesis Region) : Synthesis (List Region) :=
  match regions[i]? with
  | some r => do
    let r ← work r
    return regions.set i r
  | none => throw (.unknownRegion i)

namespace LayoutCall

/-- The work of a call when some regions are handed out, with the regions that are handed out then. -/
def work (sys : System) (regions : List Region) : LayoutCall → Synthesis (List Region)
  | plan call => do
    let _ ← call.work
    return regions
  | allocate => do
    Synthesis.allocate sys
    return regions
  | region number => do
    let r ← Synthesis.region number
    return regions ++ [r]
  | fill i call => Synthesis.onRegion regions i fun r => do
    let (_, r) ← Synthesis.fill r (call.work sys)
    return r
  | table name cells => do
    Synthesis.fillTable name cells
    return regions
  | commit i => Synthesis.onRegion regions i fun r => do
    Synthesis.commit sys r
    return { r with copies := [] }
  | constrainEqual left right => do
    Synthesis.constrainEqual sys left right
    return regions
  | constrainInstance cell column row => do
    Synthesis.constrainInstance sys cell column row
    return regions

/-- The cells that a call names in a copy constraint and does not look up. -/
def named : LayoutCall → List Cell
  | fill _ call => call.named
  | constrainEqual left right => [left, right]
  | constrainInstance cell column row => [cell, ⟨column, row⟩]
  | _ => []

end LayoutCall

/-- Calls one after the other, each with the system as it is then, up to the first failure. -/
def Synthesis.calls : List (System × LayoutCall) → List Region → Synthesis (List Region)
  | [], regions => return regions
  | (sys, call) :: calls, regions => do
    let regions ← call.work sys regions
    Synthesis.calls calls regions

/-- Calls on a new layouter, and the witness that is taken at the end. -/
def Synthesis.session (calls : List (System × LayoutCall)) : Synthesis Witness := do
  let _ ← Synthesis.calls calls []
  take

/-! ## What a call on a region does -/

namespace Fill

variable {α : Type} {sys : System} {s t : Filling}

/-- Work behind a demand. -/
theorem ends_guarded {check : Region → Except Error Unit} {work : Fill α} {a : α} :
    (require check >>= fun _ => work).Ends s a t ↔ check s.region = .ok () ∧ work.Ends s a t := by
  simp only [ends_bind, ends_require]
  exact ⟨fun ⟨_, _, ⟨hcheck, hs⟩, hwork⟩ => ⟨hcheck, hs ▸ hwork⟩, fun ⟨hcheck, hwork⟩ => ⟨(), s, ⟨hcheck, rfl⟩, hwork⟩⟩

/-- An assignment that ends well names an advice column. -/
theorem kind_of_ends_assignAdvice {c : Column} {offset : Nat} {x : Felt} {a : AssignedCell}
    (h : (assignAdvice c offset x).Ends s a t) : c.kind = .advice := by
  have hguard := (ends_guarded.mp h).1
  by_contra hkind
  rw [if_neg hkind] at hguard
  cases hguard

end Fill

/-- A call that ends well writes cells and makes copy constraints. What these name is either named by the call or has just been
written. -/
theorem RegionCall.wrote_of_ends {sys : System} {call : RegionCall} {s t : Filling} {a : Option AssignedCell}
    (h : (call.work sys).Ends s a t) :
    ∃ cells new, t = s.wrote cells new ∧ ∀ P : Cell → Prop, (∀ cell, s.matrix.HasCell cell → P cell) →
      ((∀ copy ∈ new, copy.Both P) ↔ ∀ cell ∈ call.named, P cell) := by
  cases call with
  | assignAdvice column offset x =>
    obtain ⟨b, hb, -⟩ := Fill.passesState.ends_map.mp h
    have hdoes : (Fill.assignAdvice column offset x).Does sys _ _ _ :=
      Fill.does_assignAdvice offset x (Fill.kind_of_ends_assignAdvice hb)
    obtain ⟨-, -, -, rfl⟩ := (hdoes _ _ _).mp hb
    exact ⟨_, [], rfl, by simp [named]⟩
  | assignFixed column offset x =>
    obtain ⟨b, hb, -⟩ := Fill.passesState.ends_map.mp h
    have hdoes : (Fill.assign column offset x).Does sys _ _ _ := Fill.does_assign column offset x
    obtain ⟨-, -, -, rfl⟩ := (hdoes _ _ _).mp (Fill.ends_guarded.mp hb).2
    exact ⟨_, [], rfl, by simp [named]⟩
  | enable selector offset =>
    obtain ⟨b, hb, -⟩ := Fill.passesState.ends_map.mp h
    have hdoes : (Fill.enable selector offset).Does sys _ _ _ := Fill.does_enable selector offset
    obtain ⟨-, -, -, rfl⟩ := (hdoes _ _ _).mp hb
    exact ⟨_, [], rfl, by simp [named]⟩
  | copyAdvice source column offset =>
    obtain ⟨b, hb, -⟩ := Fill.passesState.ends_map.mp h
    obtain ⟨_, _, hassign, -⟩ := Fill.ends_bind.mp hb
    have hdoes : (Fill.copyAdvice sys source column offset).Does sys _ _ _ :=
      Fill.does_copyAdvice source offset (Fill.kind_of_ends_assignAdvice hassign)
    obtain ⟨hcells, -, -, rfl⟩ := (hdoes _ _ _).mp hb
    refine ⟨_, [⟨source.cell, ⟨column, rowAt s.region.start offset⟩⟩], rfl, fun P hP => ?_⟩
    have htarget := hP ⟨column, rowAt s.region.start offset⟩ (hcells _ List.mem_cons_self).2
    rw [named, List.forall_mem_singleton, List.forall_mem_singleton]
    exact and_iff_left htarget
  | constrainEqual left right =>
    obtain ⟨b, hb, -⟩ := Fill.passesState.ends_map.mp h
    obtain ⟨-, rfl⟩ := Fill.ends_constrainEqual.mp hb
    refine ⟨[], [⟨left, right⟩], rfl, fun P _ => ?_⟩
    rw [named, List.forall_mem_singleton, List.forall_mem_cons, List.forall_mem_singleton]
    rfl

/-! ## What a call does -/

namespace Synthesis

variable {α : Type} {sys : System}

/-- Work that fails where there is no witness. -/
def NeedsWitness (work : Synthesis α) : Prop :=
  ∀ l a l', work.Ends l a l' → ∃ l₀ w, l = Layouter.withWitness l₀ w

/-- Work that fails without a witness needs one. -/
theorem needsWitness_of_error {work : Synthesis α} (h : ∀ l : Layouter, l.witness? = none → ∃ e, work l = .error e) :
    work.NeedsWitness := by
  intro l a l' hends
  cases hw : l.witness? with
  | none =>
    obtain ⟨e, he⟩ := h l hw
    cases he.symm.trans hends
  | some w =>
    refine ⟨l, w, ?_⟩
    rw [Layouter.withWitness, ← hw]

/-- Without a witness there is none to hand out. -/
theorem witness_eq_error {l : Layouter} (h : l.witness? = none) : l.witness = .error .notAllocated := by
  rw [Layouter.witness, h]
  rfl

/-- Handing out a region needs the witness. -/
theorem needsWitness_region (number : Nat) : (region number).NeedsWitness := by
  refine needsWitness_of_error fun l hl => ?_
  rw [region, Layouter.region, witness_eq_error hl]
  cases l.regions[number]? with
  | none => exact ⟨_, rfl⟩
  | some planned => exact ⟨_, rfl⟩

/-- Work on a region needs the witness. -/
theorem needsWitness_fill (r : Region) (work : Fill α) : (fill r work).NeedsWitness := by
  refine needsWitness_of_error fun l hl => ⟨.notAllocated, ?_⟩
  obtain ⟨regions, nextRow, tableRows, _⟩ := l
  cases hl
  rfl

/-- Writing a table needs the witness. -/
theorem needsWitness_fillTable (name : String) (cells : List (Column × Nat × Felt)) : (fillTable name cells).NeedsWitness := by
  refine needsWitness_of_error fun l hl => ⟨.notAllocated, ?_⟩
  obtain ⟨regions, nextRow, tableRows, _⟩ := l
  cases hl
  rfl

/-- Committing a region needs the witness. -/
theorem needsWitness_commit (sys : System) (r : Region) : (commit sys r).NeedsWitness := by
  refine needsWitness_of_error fun l hl => ⟨.notAllocated, ?_⟩
  rw [commit, Layouter.commit, Layouter.addCopies, witness_eq_error hl]
  rfl

/-- Tying two cells together needs the witness. -/
theorem needsWitness_constrainEqual (sys : System) (left right : Cell) : (constrainEqual sys left right).NeedsWitness := by
  refine needsWitness_of_error fun l hl => ⟨.notAllocated, ?_⟩
  rw [constrainEqual, Layouter.constrainEqual, Layouter.addCopies, witness_eq_error hl]
  rfl

/-- Taking the witness needs it. -/
theorem needsWitness_take : take.NeedsWitness := by
  refine needsWitness_of_error fun l hl => ⟨.notAllocated, ?_⟩
  rw [take, Layouter.take, witness_eq_error hl]
  rfl

/-- To bind a cell to a public value is to link it to a cell of an instance column. -/
theorem ends_constrainEqual_of_instance {cell : Cell} {column : Column} {row : Nat} {l l' : Layouter} {u : Unit}
    (h : (constrainInstance sys cell column row).Ends l u l') : (constrainEqual sys cell ⟨column, row⟩).Ends l u l' := by
  change (Layouter.constrainInstance l sys cell column row >>= _) = _ at h
  rw [Layouter.constrainInstance] at h
  by_cases hkind : column.kind ≠ .publicInput
  · rw [if_pos hkind] at h
    cases h
  · rwa [if_neg hkind] at h

/-- A planning call comes before the allocation, and leaves that to later calls. -/
theorem witness_of_ends_plan {call : PlanCall} {number : Option Nat} {l l' : Layouter} (h : call.work.Ends l number l') :
    l.witness? = none ∧ l'.witness? = none := by
  cases call with
  | region name height =>
    obtain ⟨_, hregion, -⟩ := passesState.ends_map.mp h
    obtain ⟨hw, -, rfl⟩ := ends_planRegion.mp hregion
    exact ⟨hw, hw⟩
  | table name rows =>
    obtain ⟨_, htable, -⟩ := passesState.ends_map.mp h
    obtain ⟨hw, rfl⟩ := ends_planTable.mp htable
    exact ⟨hw, hw⟩

/-- Work on a numbered region ends well when there is such a region and the work does on it; the region is put back. -/
theorem ends_onRegion {regions regions' : List Region} {i : Nat} {work : Region → Synthesis Region} {l l' : Layouter} :
    (onRegion regions i work).Ends l regions' l' ↔
      ∃ r r', regions[i]? = some r ∧ (work r).Ends l r' l' ∧ regions' = regions.set i r' := by
  unfold onRegion
  cases regions[i]? with
  | none => exact iff_of_false (by nofun) (by nofun)
  | some r =>
    simp only [passesState.ends_map, Option.some.injEq, exists_and_left, exists_eq_left']

end Synthesis

namespace LayoutCall

open Synthesis

/-- What a call that ends well does to a layouter and the regions that are handed out. -/
inductive Step (sys : System) : LayoutCall → Layouter → List Region → Layouter → List Region → Prop
  | plan {call : PlanCall} {l l' : Layouter} {regions : List Region} (h : l.witness? = none) (h' : l'.witness? = none) :
      Step sys (.plan call) l regions l' regions
  | allocate {l : Layouter} {regions : List Region} (h : l.witness? = none) :
      Step sys .allocate l regions (l.withWitness ⟨.zero sys l.rows, []⟩) regions
  | region {number : Nat} {l : Layouter} {w : Witness} {regions : List Region} {r : Region} (h : r.copies = []) :
      Step sys (.region number) (l.withWitness w) regions (l.withWitness w) (regions ++ [r])
  | fill {i : Nat} {call : RegionCall} {l : Layouter} {m : Matrix} {copies : List Copy} {regions : List Region} {r : Region}
      {a : Option AssignedCell} {t : Filling} (h : regions[i]? = some r) (hwork : (call.work sys).Ends ⟨r, m⟩ a t) :
      Step sys (.fill i call) (l.withWitness ⟨m, copies⟩) regions (l.withWitness ⟨t.matrix, copies⟩) (regions.set i t.region)
  | table {name : String} {cells : List (Column × Nat × Felt)} {l : Layouter} {m : Matrix} {copies : List Copy}
      {regions : List Region} :
      Step sys (.table name cells) (l.withWitness ⟨m, copies⟩) regions (l.withWitness ⟨m.writeAll cells, copies⟩) regions
  | commit {i : Nat} {l : Layouter} {m : Matrix} {copies : List Copy} {regions : List Region} {r : Region}
      (h : regions[i]? = some r) :
      Step sys (.commit i) (l.withWitness ⟨m, copies⟩) regions (l.withWitness ⟨m, copies ++ r.copies⟩)
        (regions.set i { r with copies := [] })
  | constrainEqual {left right : Cell} {l : Layouter} {m : Matrix} {copies : List Copy} {regions : List Region} :
      Step sys (.constrainEqual left right) (l.withWitness ⟨m, copies⟩) regions
        (l.withWitness ⟨m, copies ++ [⟨left, right⟩]⟩) regions
  | constrainInstance {cell : Cell} {column : Column} {row : Nat} {l : Layouter} {m : Matrix} {copies : List Copy}
      {regions : List Region} :
      Step sys (.constrainInstance cell column row) (l.withWitness ⟨m, copies⟩) regions
        (l.withWitness ⟨m, copies ++ [⟨cell, ⟨column, row⟩⟩]⟩) regions

/-- A call that ends well is a step. -/
theorem step_of_ends {sys : System} {call : LayoutCall} {l l' : Layouter} {regions regions' : List Region}
    (h : (call.work sys regions).Ends l regions' l') : Step sys call l regions l' regions' := by
  cases call with
  | plan call =>
    obtain ⟨number, hplan, rfl⟩ := passesState.ends_map.mp h
    obtain ⟨hw, hw'⟩ := witness_of_ends_plan hplan
    exact .plan hw hw'
  | allocate =>
    obtain ⟨_, hallocate, rfl⟩ := passesState.ends_map.mp h
    obtain ⟨hw, rfl⟩ := ends_allocate.mp hallocate
    exact .allocate hw
  | region number =>
    obtain ⟨r, hregion, rfl⟩ := passesState.ends_map.mp h
    obtain ⟨l, w, rfl⟩ := needsWitness_region number _ _ _ hregion
    obtain ⟨planned, -, rfl, rfl⟩ := ends_region.mp hregion
    exact .region rfl
  | fill i call =>
    obtain ⟨r, r', hr, hwork, rfl⟩ := ends_onRegion.mp h
    obtain ⟨⟨a, _⟩, hfill, rfl⟩ := passesState.ends_map.mp hwork
    obtain ⟨l, ⟨m, copies⟩, rfl⟩ := needsWitness_fill r _ _ _ _ hfill
    obtain ⟨_, t, hends, hx, rfl⟩ := ends_fill.mp hfill
    obtain ⟨rfl, rfl⟩ := Prod.mk.inj hx
    exact .fill hr hends
  | table name cells =>
    obtain ⟨_, htable, rfl⟩ := passesState.ends_map.mp h
    obtain ⟨l, ⟨m, copies⟩, rfl⟩ := needsWitness_fillTable name cells _ _ _ htable
    obtain ⟨-, rfl⟩ := ends_fillTable.mp htable
    exact .table
  | commit i =>
    obtain ⟨r, r', hr, hwork, rfl⟩ := ends_onRegion.mp h
    obtain ⟨_, hcommit, rfl⟩ := passesState.ends_map.mp hwork
    obtain ⟨l, ⟨m, copies⟩, rfl⟩ := needsWitness_commit sys r _ _ _ hcommit
    obtain ⟨-, rfl⟩ := ends_commit.mp hcommit
    exact .commit hr
  | constrainEqual left right =>
    obtain ⟨_, hequal, rfl⟩ := passesState.ends_map.mp h
    obtain ⟨l, ⟨m, copies⟩, rfl⟩ := needsWitness_constrainEqual sys left right _ _ _ hequal
    obtain ⟨-, rfl⟩ := ends_constrainEqual.mp hequal
    exact .constrainEqual
  | constrainInstance cell column row =>
    obtain ⟨_, hinstance, rfl⟩ := passesState.ends_map.mp h
    have hequal := ends_constrainEqual_of_instance hinstance
    obtain ⟨l, ⟨m, copies⟩, rfl⟩ := needsWitness_constrainEqual sys cell ⟨column, row⟩ _ _ _ hequal
    obtain ⟨-, rfl⟩ := ends_constrainEqual.mp hequal
    exact .constrainInstance

variable {sys : System} {call : LayoutCall} {calls : List (System × LayoutCall)} {l l' : Layouter}
variable {regions regions' : List Region} {P : Cell → Prop}

/-! ## The shape of the matrix -/

/-- A call leaves the cells of the matrix, once there is one. -/
theorem Step.sameShape (h : Step sys call l regions l' regions') {w : Witness} (hw : l.witness? = some w) :
    ∃ w', l'.witness? = some w' ∧ w.matrix.SameShape w'.matrix := by
  cases h with
  | plan hnone | allocate hnone => cases hnone.symm.trans hw
  | region | commit | constrainEqual | constrainInstance =>
    cases hw
    exact ⟨_, rfl, rfl, fun _ => Iff.rfl⟩
  | fill hr hwork =>
    cases hw
    obtain ⟨cells, new, rfl, -⟩ := RegionCall.wrote_of_ends hwork
    exact ⟨_, rfl, Matrix.sameShape_writeAll _ cells⟩
  | table =>
    cases hw
    exact ⟨_, rfl, Matrix.sameShape_writeAll _ _⟩

/-- There is a matrix only after an allocation, with the columns that the system has then. -/
theorem Step.allocated (h : Step sys call l regions l' regions') (hnone : l.witness? = none) {w : Witness}
    (hw : l'.witness? = some w) : call = .allocate ∧ w.matrix = .zero sys l.rows := by
  cases h with
  | plan _ hnone' => cases hnone'.symm.trans hw
  | allocate =>
    cases hw
    exact ⟨rfl, rfl⟩
  | region | fill | table | commit | constrainEqual | constrainInstance => cases hnone

/-- Calls end well one after the other. -/
theorem ends_calls_cons {head : System × LayoutCall} :
    (Synthesis.calls (head :: calls) regions).Ends l regions' l' ↔
      ∃ between l₁, (head.2.work head.1 regions).Ends l between l₁ ∧ (Synthesis.calls calls between).Ends l₁ regions' l' :=
  ends_bind

theorem ends_calls_nil : (Synthesis.calls [] regions).Ends l regions' l' ↔ regions' = regions ∧ l' = l :=
  ends_pure

/-- Calls leave the cells of the matrix, once there is one. -/
theorem sameShape_of_ends (h : (Synthesis.calls calls regions).Ends l regions' l') {w : Witness} (hw : l.witness? = some w) :
    ∃ w', l'.witness? = some w' ∧ w.matrix.SameShape w'.matrix := by
  induction calls generalizing l regions w with
  | nil =>
    obtain ⟨-, rfl⟩ := ends_calls_nil.mp h
    exact ⟨w, hw, rfl, fun _ => Iff.rfl⟩
  | cons head calls ih =>
    obtain ⟨between, l₁, hhead, hcalls⟩ := ends_calls_cons.mp h
    obtain ⟨w₁, hw₁, hshape⟩ := (step_of_ends hhead).sameShape hw
    obtain ⟨w', hw', hshape'⟩ := ih hcalls hw₁
    exact ⟨w', hw', hshape.trans hshape'⟩

/-- The matrix at the end has the columns that the system had at the allocation. -/
theorem exists_allocate (h : (Synthesis.calls calls regions).Ends l regions' l') (hnone : l.witness? = none) {w : Witness}
    (hw : l'.witness? = some w) :
    ∃ shape rows, (shape, .allocate) ∈ calls ∧ (Matrix.zero shape rows).SameShape w.matrix := by
  induction calls generalizing l regions with
  | nil =>
    obtain ⟨-, rfl⟩ := ends_calls_nil.mp h
    cases hnone.symm.trans hw
  | cons head calls ih =>
    obtain ⟨shape, call⟩ := head
    obtain ⟨between, l₁, hhead, hcalls⟩ := ends_calls_cons.mp h
    cases hw₁ : l₁.witness? with
    | none =>
      obtain ⟨shape', rows, hmem, hshape⟩ := ih hcalls hw₁
      exact ⟨shape', rows, List.mem_cons_of_mem _ hmem, hshape⟩
    | some w₁ =>
      obtain ⟨rfl, hmatrix⟩ := (step_of_ends hhead).allocated hnone hw₁
      obtain ⟨w', hw', hshape⟩ := sameShape_of_ends hcalls hw₁
      cases hw.symm.trans hw'
      exact ⟨shape, _, List.mem_cons_self, hmatrix ▸ hshape⟩

end LayoutCall

end ScriptCircuit
