import Mathlib
import ScriptCircuit.Proofs.Plonk.Marks
import ScriptCircuit.Proofs.Plonk.Satisfied

/-!
# Cells that are written once

A list of cells that names no cell with two values leaves in the matrix what it names. `Unique` goes through the lists that a
synthesis leaves behind: cells of different columns, of different rows, and of regions whose rows have numbers.
-/

namespace ScriptCircuit

/-- No cell is named with two values. -/
def Unique (cells : List (Column × Nat × Felt)) : Prop :=
  ∀ x ∈ cells, ∀ y ∈ cells, x.1 = y.1 → x.2.1 = y.2.1 → x.2.2 = y.2.2

/-- No cell is named by both lists. -/
def Apart (cells cells' : List (Column × Nat × Felt)) : Prop :=
  ∀ x ∈ cells, ∀ y ∈ cells', x.1 = y.1 → x.2.1 ≠ y.2.1

namespace Apart

variable {cells cells' : List (Column × Nat × Felt)}

/-- The cells of two lists lie in different rows. -/
theorem of_row {bound : Nat} (h : ∀ x ∈ cells, x.2.1 < bound) (h' : ∀ x ∈ cells', bound ≤ x.2.1) : Apart cells cells' :=
  fun x hx y hy _ => Nat.ne_of_lt (Nat.lt_of_lt_of_le (h x hx) (h' y hy))

end Apart

namespace Unique

variable {cells cells' : List (Column × Nat × Felt)}

theorem of_subset (h : Unique cells') (hsub : cells ⊆ cells') : Unique cells :=
  fun x hx y hy => h x (hsub hx) y (hsub hy)

/-- Lists of cells without a common cell are written once together. -/
theorem append (h : Unique cells) (h' : Unique cells') (hapart : Apart cells cells') : Unique (cells ++ cells') := by
  intro x hx y hy hcolumn hrow
  rcases List.mem_append.mp hx with hx | hx <;> rcases List.mem_append.mp hy with hy | hy
  · exact h x hx y hy hcolumn hrow
  · exact absurd hrow (hapart x hx y hy hcolumn)
  · exact absurd hrow.symm (hapart y hy x hx hcolumn.symm)
  · exact h' x hx y hy hcolumn hrow

/-- Cells of different columns. -/
theorem of_nodup (h : (cells.map Prod.fst).Nodup) : Unique cells := fun _ hx _ hy hcolumn _ =>
  congrArg (·.2.2) (List.inj_on_of_nodup_map h hx hy hcolumn)

/-- The cells of numbered entries are unique when no two entries name one cell. -/
theorem flatMap_zipIdx {α : Type} {xs : List α} {cells : α × Nat → List (Column × Nat × Felt)}
    (h : ∀ x i, xs[i]? = some x → Unique (cells (x, i)))
    (happart : ∀ x y i j, i < j → j < xs.length → Apart (cells (x, i)) (cells (y, j))) :
    Unique ((xs.zipIdx 0).flatMap cells) := by
  intro u hu v hv hcolumn hrow
  obtain ⟨⟨x, i⟩, hx, hu⟩ := List.mem_flatMap.mp hu
  obtain ⟨⟨y, j⟩, hy, hv⟩ := List.mem_flatMap.mp hv
  rw [List.mem_zipIdx_iff_getElem?] at hx hy
  rcases Nat.lt_trichotomy i j with hlt | heq | hlt
  · exact absurd hrow (happart x y i j hlt (List.getElem?_eq_some_iff.mp hy).1 u hu v hv hcolumn)
  · obtain rfl : i = j := heq
    obtain rfl : x = y := Option.some.inj (hx.symm.trans hy)
    exact h x i hx u hu v hv hcolumn hrow
  · exact absurd hrow.symm (happart y x j i hlt (List.getElem?_eq_some_iff.mp hx).1 v hv u hu hcolumn.symm)

/-- Cells by offsets, placed in a region whose rows have numbers. -/
theorem placed (h : Unique cells) {start : Nat} (hsize : ∀ x ∈ cells, start + x.2.1 < UInt64.size) :
    Unique (placed start cells) := by
  intro u hu v hv hcolumn hrow
  obtain ⟨x, hx, rfl⟩ := List.mem_map.mp hu
  obtain ⟨y, hy, rfl⟩ := List.mem_map.mp hv
  have hoffset : start + x.2.1 = start + y.2.1 := (rowAt_eq (hsize x hx)).symm.trans (hrow.trans (rowAt_eq (hsize y hy)))
  exact h x hx y hy hcolumn (Nat.add_left_cancel hoffset)

end Unique

namespace Claim

variable {claim : Claim}

/-- A cell exists and holds what is named for it. -/
def Holds (claim : Claim) (x : Column × Nat × Felt) : Prop :=
  claim.HasCell ⟨x.1, x.2.1⟩ ∧ claim.value x.1 x.2.1 = x.2.2

/-- A cell agrees with a copy of it. -/
theorem Holds.agrees {source : AssignedCell} {column : Column} {row : Nat}
    (h : claim.Holds (source.cell.column, source.cell.row, source.value)) (h' : claim.Holds (column, row, source.value)) :
    claim.Agrees ⟨source.cell, ⟨column, row⟩⟩ :=
  ⟨h.1, h'.1, h.2.trans h'.2.symm⟩

/-- What is written into a fresh matrix is held, when all writes to the cell agree. -/
theorem holds_of_mem {sys : System} {rows : Nat} {cells : List (Column × Nat × Felt)}
    (hmatrix : claim.witness.matrix = (Matrix.zero sys rows).writeAll cells) {x : Column × Nat × Felt} (hmem : x ∈ cells)
    (hcolumn : (Matrix.zero sys rows).HasColumn x.1) (hrow : x.2.1 < rows)
    (hall : ∀ y ∈ cells, y.1 = x.1 → y.2.1 = x.2.1 → y.2.2 = x.2.2) : claim.Holds x := by
  have hkind : x.1.kind ≠ .publicInput := ((Matrix.hasColumn_zero sys rows x.1).mp hcolumn).1
  refine ⟨?_, ?_⟩
  · rw [HasCell, if_neg hkind, Claim.rows, hmatrix, Matrix.rows_writeAll, Matrix.hasColumn_writeAll]
    exact ⟨hrow, hcolumn⟩
  · rw [Claim.value, if_neg hkind, hmatrix]
    exact Matrix.value_writeAll_of_mem _ hcolumn hrow hmem fun y hy => hall _ hy rfl rfl

end Claim

end ScriptCircuit
