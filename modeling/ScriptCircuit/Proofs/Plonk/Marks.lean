import Mathlib
import ScriptCircuit.Proofs.Plonk.Fill

/-!
# Marked rows

A fixed column that switches gates on is only ever written with ones. `Marks` names the rows at which a list of cells does
so, and goes through the lists that a synthesis leaves behind; in a fresh matrix the column is one there and zero elsewhere.
-/

namespace ScriptCircuit

/-- A placed cell comes from an offset. -/
theorem mem_placed {start row : Nat} {cells : List (Column × Nat × Felt)} {column : Column} {x : Felt} :
    (column, row, x) ∈ placed start cells ↔ ∃ offset, (column, offset, x) ∈ cells ∧ row = rowAt start offset := by
  simp only [placed, List.mem_map, Prod.mk.injEq, Prod.exists]
  constructor
  · rintro ⟨_, offset, _, h, rfl, rfl, rfl⟩
    exact ⟨offset, h, rfl⟩
  · rintro ⟨offset, h, rfl⟩
    exact ⟨_, offset, _, h, rfl, rfl, rfl⟩

/-- A row that has a number is not wrapped around. -/
theorem rowAt_eq {start offset : Nat} (h : start + offset < UInt64.size) : rowAt start offset = start + offset :=
  Nat.mod_eq_of_lt h

/-- Cells write ones into a column at given rows, and nothing else. -/
def Marks (cells : List (Column × Nat × Felt)) (column : Column) (P : Nat → Prop) : Prop :=
  ∀ row x, (column, row, x) ∈ cells ↔ P row ∧ x = 1

namespace Marks

variable {cells cells' : List (Column × Nat × Felt)} {column : Column} {P Q : Nat → Prop}

/-- The marked rows can be described in another way. -/
theorem congr (h : Marks cells column P) (hrows : ∀ row, P row ↔ Q row) : Marks cells column Q := by
  intro row x
  rw [h row x, hrows row]

/-- The cells of the column decide what is marked. -/
theorem of_mem_iff (h : Marks cells column P) (hcells : ∀ row x, (column, row, x) ∈ cells' ↔ (column, row, x) ∈ cells) :
    Marks cells' column P := by
  intro row x
  rw [hcells row x, h row x]

/-- Cells of other columns mark no row. -/
theorem of_forall_ne (h : ∀ x ∈ cells, x.1 ≠ column) : Marks cells column fun _ => False := by
  intro row x
  exact iff_of_false (fun hmem => h _ hmem rfl) (And.left ·)

/-- Placed cells of other columns mark no row. -/
theorem placed_of_forall_ne {start : Nat} (h : ∀ x ∈ cells, x.1 ≠ column) : Marks (placed start cells) column fun _ => False := by
  refine of_forall_ne fun x hx => ?_
  obtain ⟨y, hy, rfl⟩ := List.mem_map.mp hx
  exact h y hy

/-- One cell marks its row. -/
theorem single (column : Column) (row : Nat) : Marks [(column, row, 1)] column (· = row) := by
  intro row' x
  rw [List.mem_singleton, Prod.mk.injEq, Prod.mk.injEq]
  exact and_iff_right rfl

/-- Lists of cells mark the rows of either. -/
theorem append (h : Marks cells column P) (h' : Marks cells' column Q) :
    Marks (cells ++ cells') column fun row => P row ∨ Q row := by
  intro row x
  rw [List.mem_append, h row x, h' row x, or_and_right]

/-- A mark in front of cells. -/
theorem cons (h : Marks cells column P) (row : Nat) :
    Marks ((column, row, 1) :: cells) column fun row' => row' = row ∨ P row' :=
  (single column row).append h

/-- A cell of another column in front of cells. -/
theorem cons_of_ne (h : Marks cells column P) (cell : Column × Nat × Felt) (hne : cell.1 ≠ column) :
    Marks (cell :: cells) column P := by
  intro row x
  rw [← h row x, List.mem_cons, or_iff_right]
  rintro rfl
  exact hne rfl

/-- The cells of numbered entries mark the rows of each. -/
theorem flatMap_zipIdx {α : Type} {xs : List α} {cells : α × Nat → List (Column × Nat × Felt)} {P : Nat → Nat → Prop}
    (h : ∀ x i, i < xs.length → Marks (cells (x, i)) column (P i)) :
    Marks ((xs.zipIdx 0).flatMap cells) column fun row => ∃ i, i < xs.length ∧ P i row := by
  intro row x
  rw [List.mem_flatMap]
  constructor
  · rintro ⟨⟨entry, i⟩, hentry, hmem⟩
    have hi : i < xs.length := (List.getElem?_eq_some_iff.mp (List.mem_zipIdx_iff_getElem?.mp hentry)).1
    obtain ⟨hrow, hx⟩ := (h entry i hi row x).mp hmem
    exact ⟨⟨i, hi, hrow⟩, hx⟩
  · rintro ⟨⟨i, hi, hrow⟩, hx⟩
    exact ⟨(xs[i], i), List.mem_zipIdx_iff_getElem?.mpr (List.getElem?_eq_getElem hi), (h xs[i] i hi row x).mpr ⟨hrow, hx⟩⟩

/-- Marks by offsets, placed in a region whose rows have numbers. -/
theorem placed (h : Marks cells column P) (start : Nat) (hrow : ∀ offset, P offset → start + offset < UInt64.size) :
    Marks (placed start cells) column fun row => ∃ offset, P offset ∧ row = start + offset := by
  intro row x
  rw [mem_placed]
  constructor
  · rintro ⟨offset, hmem, rfl⟩
    obtain ⟨hoffset, hx⟩ := (h offset x).mp hmem
    exact ⟨⟨offset, hoffset, rowAt_eq (hrow offset hoffset)⟩, hx⟩
  · rintro ⟨⟨offset, hoffset, rfl⟩, hx⟩
    exact ⟨offset, (h offset x).mpr ⟨hoffset, hx⟩, (rowAt_eq (hrow offset hoffset)).symm⟩

/-- In a fresh matrix a marked column is one at the marked rows and zero elsewhere. -/
theorem value [DecidablePred P] (h : Marks cells column P) {sys : System} {rows : Nat}
    (hcolumn : (Matrix.zero sys rows).HasColumn column) (hrows : ∀ row, P row → row < rows) (row : Nat) :
    ((Matrix.zero sys rows).writeAll cells).value column row = if P row then 1 else 0 :=
  Matrix.value_zero_writeAll hcolumn (hrows row) (h row)

end Marks

end ScriptCircuit
