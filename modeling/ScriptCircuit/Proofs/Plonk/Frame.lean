import Mathlib
import ScriptCircuit.Proofs.Plonk.Interleaving

/-!
# What work leaves alone

Work that fails halfway keeps what it did before. `Confined` says of work, whether it ends well or not, which cells it can
have written: a call on a region writes one column.
-/

namespace ScriptCircuit

namespace Filling

variable {sys : System} {P : Column × Nat × Felt → Prop} {s t u : Filling}

/-- The second state is the first one with more cells, all of a kind, and more copy constraints, all of them enabled. -/
def Grows (sys : System) (P : Column × Nat × Felt → Prop) (s t : Filling) : Prop :=
  ∃ cells copies, t = s.wrote cells copies ∧ (∀ x ∈ cells, P x) ∧
    ∀ copy ∈ copies, sys.Links copy.left.column copy.right.column

/-- A filling is its own growth. -/
theorem Grows.refl (s : Filling) : s.Grows sys P s :=
  ⟨[], [], s.wrote_nil.symm, by simp, by simp⟩

/-- Growth after growth is growth. -/
theorem Grows.trans (h : s.Grows sys P t) (h' : t.Grows sys P u) : s.Grows sys P u := by
  obtain ⟨cells, copies, rfl, hcells, hcopies⟩ := h
  obtain ⟨cells', copies', rfl, hcells', hcopies'⟩ := h'
  exact ⟨cells ++ cells', copies ++ copies', s.wrote_wrote cells cells' copies copies',
    List.forall_mem_append.mpr ⟨hcells, hcells'⟩, List.forall_mem_append.mpr ⟨hcopies, hcopies'⟩⟩

/-- Writing an allowed cell is growth. -/
theorem Grows.write (s : Filling) {c : Column} {row : Nat} {x : Felt} (h : P (c, row, x)) :
    s.Grows sys P { s with matrix := s.matrix.write c row x } := by
  refine ⟨[(c, row, x)], [], ?_, List.forall_mem_singleton.mpr h, by simp⟩
  rw [wrote, Region.link_nil]
  rfl

/-- A copy constraint between enabled columns is growth. -/
theorem Grows.link (s : Filling) {copy : Copy} (h : sys.Links copy.left.column copy.right.column) :
    s.Grows sys P { s with region.copies := s.region.copies ++ [copy] } :=
  ⟨[], [copy], rfl, by simp, List.forall_mem_singleton.mpr h⟩

end Filling

namespace Fill

variable {α β : Type} {sys : System} {P : Column × Nat × Felt → Prop} {c : Column} {x : Felt}

/-- However it ends, work writes cells of one kind only and makes enabled copy constraints only. -/
def Confined (work : Fill α) (sys : System) (P : Column × Nat × Felt → Prop) : Prop :=
  ∀ s : Filling, s.Grows sys P (work.run s).2

/-- Work that decides something and leaves the state. -/
theorem confined_quiet {work : Fill α} (h : ∀ s, (work.run s).2 = s) : work.Confined sys P := by
  intro s
  rw [h s]
  exact .refl s

theorem confined_pure (a : α) : (pure a : Fill α).Confined sys P :=
  confined_quiet fun _ => rfl

/-- Confined works in sequence are confined. -/
theorem Confined.bind {work : Fill α} {f : α → Fill β} (h : work.Confined sys P) (h' : ∀ a, (f a).Confined sys P) :
    (work >>= f).Confined sys P := by
  intro s
  have hwork := h s
  rw [run_bind]
  rcases hrun : work.run s with ⟨result, t⟩
  rw [hrun] at hwork
  cases result with
  | error e => exact hwork
  | ok a => exact hwork.trans (h' a t)

/-- Dropping the result of confined work leaves it confined. -/
theorem Confined.discard {work : Fill α} (h : work.Confined sys P) : (Functor.discard work : Fill Unit).Confined sys P :=
  h.bind fun _ => confined_pure ()

theorem confined_require (check : Region → Except Error Unit) : (require check).Confined sys P :=
  confined_quiet fun _ => rfl

/-- Finding the row of an offset is confined. -/
theorem confined_place (offset : Nat) : (place offset).Confined sys P := by
  refine confined_quiet fun s => ?_
  change (place offset s).2 = s
  unfold place
  split <;> rfl

/-- Writing an allowed cell is confined. -/
theorem confined_write (row : Nat) (h : P (c, row, x)) : (write c row x).Confined sys P := by
  intro s
  change s.Grows sys P (write c row x s).2
  unfold write
  split
  · exact .write s h
  · exact .refl s

/-- Assigning a cell is confined when the value is allowed in every row of its column. -/
theorem confined_assign (offset : Nat) (h : ∀ row, P (c, row, x)) : (assign c offset x).Confined sys P :=
  (confined_place offset).bind fun row => (confined_write row (h row)).bind fun _ => confined_pure _

/-- Assigning an advice cell is confined when the value is allowed in every row of its column. -/
theorem confined_assignAdvice (offset : Nat) (h : ∀ row, P (c, row, x)) : (assignAdvice c offset x).Confined sys P :=
  (confined_require _).bind fun _ => confined_assign offset h

/-- Assigning a fixed cell is confined when the value is allowed in every row of its column. -/
theorem confined_assignFixed (offset : Nat) (h : ∀ row, P (c, row, x)) : (assignFixed c offset x).Confined sys P :=
  (confined_require _).bind fun _ => confined_assign offset h

/-- Enabling a selector is confined when a one is allowed in every row of its column. -/
theorem confined_enable (offset : Nat) (h : ∀ row, P (c, row, 1)) : (enable c offset).Confined sys P :=
  (confined_assign offset h).discard

/-- A copy constraint between two cells is confined. -/
theorem confined_constrainEqual (left right : Cell) : (constrainEqual sys left right).Confined sys P := by
  intro s
  change s.Grows sys P (constrainEqual sys left right s).2
  unfold constrainEqual
  split
  · rename_i hcheck
    exact .link s ((sys.checkCopy_eq_ok _).mp hcheck)
  · exact .refl s

/-- Copying a cell is confined when its value is allowed in every row of the target column. -/
theorem confined_copyAdvice (source : AssignedCell) (offset : Nat) (h : ∀ row, P (c, row, source.value)) :
    (copyAdvice sys source c offset).Confined sys P :=
  (confined_assignAdvice offset h).bind fun copied =>
    (confined_constrainEqual source.cell copied.cell).bind fun _ => confined_pure copied

end Fill

/-- The column that a call writes, if it writes one. -/
def RegionCall.column? : RegionCall → Option Column
  | assignAdvice column .. => some column
  | assignFixed column .. => some column
  | enable selector _ => some selector
  | copyAdvice _ column _ => some column
  | constrainEqual .. => none

/-- A call writes its column. -/
theorem RegionCall.confined_work (sys : System) (call : RegionCall) :
    (call.work sys).Confined sys fun x => call.column? = some x.1 := by
  cases call with
  | assignAdvice column offset x =>
    exact (Fill.confined_assignAdvice offset fun _ => rfl).bind fun _ => Fill.confined_pure _
  | assignFixed column offset x =>
    exact (Fill.confined_assignFixed offset fun _ => rfl).bind fun _ => Fill.confined_pure _
  | enable selector offset => exact (Fill.confined_enable offset fun _ => rfl).bind fun _ => Fill.confined_pure _
  | copyAdvice source column offset =>
    exact (Fill.confined_copyAdvice source offset fun _ => rfl).bind fun _ => Fill.confined_pure _
  | constrainEqual left right => exact (Fill.confined_constrainEqual left right).bind fun _ => Fill.confined_pure _

end ScriptCircuit
