import Mathlib
import ScriptCircuit.Plonk.Schedule
import ScriptCircuit.Proofs.Plonk.Satisfied

/-!
# Every schedule finds the same failures

A flag is set in the end exactly when its evaluation fails, in whatever order the evaluations are done, because no two of
them share a slot. So the failures that are read off the flags do not depend on the schedule, and the mended remainder reads
the row that the mathematical one names.
-/

namespace ScriptCircuit

open MatrixAux SatisfiedAux

namespace ScheduleAux

variable {α : Type} {slot : α → Nat} {fails : α → Bool} {s : Nat}

/-- A flag is raised when it was before, or when some entry that fails has its slot. -/
theorem getD_foldl_flags (order : List α) {flags : Array Bool} (hs : s < flags.size) :
    (order.foldl (fun flags x => if fails x then flags.setIfInBounds (slot x) true else flags) flags).getD s false = true ↔
      flags.getD s false = true ∨ ∃ x ∈ order, fails x = true ∧ slot x = s := by
  induction order generalizing flags with
  | nil => simp
  | cons x order ih =>
    rw [List.foldl_cons, List.exists_mem_cons_iff]
    by_cases hfails : fails x = true
    · rw [if_pos hfails, ih (by rwa [Array.size_setIfInBounds]), Array.getD_eq_getD_getElem?, Array.getD_eq_getD_getElem?,
        Array.getElem?_setIfInBounds, and_iff_right hfails]
      by_cases hslot : slot x = s
      · rw [if_pos hslot, if_pos (hslot ▸ hs)]
        simp [hslot]
      · rw [if_neg hslot]
        simp [hslot]
    · rw [if_neg hfails, ih hs]
      simp [hfails]

/-- A flag is set when an evaluation with its slot fails. -/
theorem getD_flagged (order : List α) {size : Nat} (hs : s < size) :
    (flagged slot fails order size).getD s false = true ↔ ∃ x ∈ order, fails x = true ∧ slot x = s := by
  rw [flagged, getD_foldl_flags order (by rwa [Array.size_replicate])]
  simp [Array.getD_eq_getD_getElem?, hs]

/-- No two polynomials of a gate share a slot. -/
theorem slot_inj {k row row' index index' : Nat} (hindex : index < k) (hindex' : index' < k)
    (h : row * k + index = row' * k + index') : row = row' ∧ index = index' := by
  have hdiv : ∀ row index, index < k → (row * k + index) / k = row := fun row index hlt => by
    rw [Nat.mul_comm, Nat.mul_add_div (by omega), Nat.div_eq_of_lt hlt, Nat.add_zero]
  have hrow : row = row' := by
    calc row = (row * k + index) / k := (hdiv row index hindex).symm
      _ = (row' * k + index') / k := by rw [h]
      _ = row' := hdiv row' index' hindex'
  subst hrow
  exact ⟨rfl, Nat.add_left_cancel h⟩

/-- The slot of a polynomial on a row lies among the slots of all rows. -/
theorem slot_lt {k rows row index : Nat} (hrow : row < rows) (hindex : index < k) : row * k + index < rows * k :=
  calc row * k + index < row * k + k := Nat.add_lt_add_left hindex _
    _ = (row + 1) * k := (Nat.succ_mul row k).symm
    _ ≤ rows * k := Nat.mul_le_mul_right k hrow

/-- Two computations that do the same on every element of a list do the same on the list. -/
theorem mapM_congr {β : Type} {f g : α → Except Error β} {xs : List α} (h : ∀ x ∈ xs, f x = g x) : xs.mapM f = xs.mapM g := by
  induction xs with
  | nil => rfl
  | cons x xs ih =>
    rw [List.forall_mem_cons] at h
    rw [List.mapM_cons, List.mapM_cons, h.1, ih h.2]

end ScheduleAux

open ScheduleAux

namespace Claim

/-- The mended remainder is the mathematical one. -/
theorem wrap_eq_rotate (c : Claim) (row : Nat) (rotation : Int) : c.wrap row rotation = c.rotate row rotation := by
  unfold wrap rotate
  generalize (row : Int) + rotation = target
  have hrows : (0 : Int) ≤ c.rows := Int.natCast_nonneg _
  generalize (c.rows : Int) = n at hrows
  dsimp only
  rw [Int.tmod_eq_emod]
  by_cases hn : n = 0
  · subst hn
    simp
  · have hlow := Int.emod_nonneg target hn
    have hhigh := Int.emod_lt_of_pos target (by omega : 0 < n)
    by_cases hsign : 0 ≤ target ∨ n ∣ target
    · rw [if_pos hsign, if_neg (by omega), Nat.cast_zero, Int.sub_zero]
    · rw [if_neg hsign, if_pos (by omega)]
      omega

/-- Evaluation with wrapped rows is evaluation. -/
theorem evalWrapped_eq (c : Claim) (row : Nat) (e : Expr) : c.evalWrapped row e = c.eval row e := by
  rw [evalWrapped, eval]
  simp only [wrap_eq_rotate]

/-- A gate has the same failures in every order of its evaluations. -/
theorem gateFailuresBy_eq (c : Claim) (g : Gate) {order : List (Nat × Nat)}
    (horder : ∀ row index, (row, index) ∈ order ↔ row < c.rows ∧ index < g.polys.length) :
    c.gateFailuresBy order g = c.gateFailures g := by
  unfold gateFailuresBy gateFailures
  refine List.flatMap_congr fun row hrow => ?_
  rw [List.mem_range] at hrow
  have hflag : ∀ index, index < g.polys.length →
      ((flagged (fun x => x.1 * g.polys.length + x.2) (fun x => c.evaluationFails g x.1 x.2) order
        (c.rows * g.polys.length)).getD (row * g.polys.length + index) false = true ↔ c.evaluationFails g row index = true) := by
    intro index hindex
    rw [getD_flagged order (slot_lt hrow hindex)]
    constructor
    · rintro ⟨⟨row', index'⟩, hmem, hfails, hslot⟩
      obtain ⟨rfl, rfl⟩ := slot_inj ((horder _ _).mp hmem).2 hindex hslot
      exact hfails
    · intro hfails
      exact ⟨(row, index), (horder _ _).mpr ⟨hrow, hindex⟩, hfails, rfl⟩
  have hrange : List.range g.polys.length = (g.polys.zipIdx 0).map Prod.snd := by
    rw [List.zipIdx_map_snd, List.range_eq_range']
  rw [hrange, List.filterMap_map]
  refine List.filterMap_congr fun ⟨e, index⟩ hmem => ?_
  have hpoly : g.polys[index]? = some e := List.mem_zipIdx_iff_getElem?.mp hmem
  have hindex : index < g.polys.length := (List.getElem?_eq_some_iff.mp hpoly).1
  have hfails : c.evaluationFails g row index = true ↔ ¬c.eval row e = 0 := by
    simp [evaluationFails, hpoly, evalWrapped_eq]
  have hset := (hflag index hindex).trans hfails
  by_cases hzero : c.eval row e = 0
  · exact (if_neg fun h => hset.mp h hzero).trans (if_pos hzero).symm
  · exact (if_pos (hset.mpr hzero)).trans (if_neg hzero).symm

/-- A lookup has the same failures in every order of its evaluations. -/
theorem lookupFailuresBy_eq (c : Claim) (l : Lookup) {order : List Nat} (horder : ∀ row, row ∈ order ↔ row < c.rows) :
    c.lookupFailuresBy order l = c.lookupFailures l := by
  unfold lookupFailuresBy lookupFailures
  refine List.filterMap_congr fun row hrow => ?_
  have heval : c.evalWrapped row = c.eval row := funext (c.evalWrapped_eq row)
  rw [List.mem_range] at hrow
  have hflag : (flagged id (fun row => !(c.tableRows l).contains (l.inputs.map (c.evalWrapped row))) order c.rows).getD row
      false = true ↔ _ := getD_flagged order hrow
  have hset : (∃ x ∈ order, (!(c.tableRows l).contains (l.inputs.map (c.evalWrapped x))) = true ∧ id x = row) ↔
      ¬(c.tableRows l).contains (l.inputs.map (c.eval row)) = true := by
    rw [← heval, Bool.not_eq_true, ← Bool.not_eq_true']
    constructor
    · rintro ⟨x, -, hfails, rfl⟩
      exact hfails
    · intro hfails
      exact ⟨row, (horder row).mpr hrow, hfails, rfl⟩
  rw [hset] at hflag
  by_cases hfound : (c.tableRows l).contains (l.inputs.map (c.eval row)) = true
  · rw [if_pos hfound]
    exact if_neg fun h => hflag.mp h hfound
  · rw [if_neg hfound]
    exact if_pos (hflag.mpr hfound)

end Claim

/-- A schedule does every evaluation of a check, and no other. -/
structure Schedule.Complete (s : Schedule) (c : Claim) : Prop where
  gate : ∀ i g, c.system.gates[i]? = some g → ∀ row index, (row, index) ∈ s.gate i ↔ row < c.rows ∧ index < g.polys.length
  lookup : ∀ i, i < c.system.lookups.length → ∀ row, row ∈ s.lookup i ↔ row < c.rows

/-- A check has the same outcome under every complete schedule. -/
theorem Claim.failuresBy_eq (c : Claim) {s : Schedule} (hs : s.Complete c) : c.failuresBy s = c.failures := by
  have hgates : (c.system.gates.zipIdx 0).flatMap (fun x => c.gateFailuresBy (s.gate x.2) x.1) =
      c.system.gates.flatMap c.gateFailures := by
    nth_rewrite 2 [← List.zipIdx_map_fst 0 c.system.gates]
    rw [List.flatMap_map]
    exact List.flatMap_congr fun ⟨g, i⟩ hmem => c.gateFailuresBy_eq g (hs.gate i g (List.mem_zipIdx_iff_getElem?.mp hmem))
  have hlookups : (c.system.lookups.zipIdx 0).mapM (fun x => do
        x.1.table.forM fun column => discard (c.witness.matrix.column column)
        return c.lookupFailuresBy (s.lookup x.2) x.1) =
      c.system.lookups.mapM (fun l => do
        l.table.forM fun column => discard (c.witness.matrix.column column)
        return c.lookupFailures l) := by
    nth_rewrite 2 [← List.zipIdx_map_fst 0 c.system.lookups]
    rw [List.mapM_map]
    refine mapM_congr fun ⟨l, i⟩ hmem => ?_
    have hi := (List.getElem?_eq_some_iff.mp (List.mem_zipIdx_iff_getElem?.mp hmem)).1
    rw [c.lookupFailuresBy_eq l (hs.lookup i hi)]
    rfl
  unfold failuresBy failures
  rw [hgates, hlookups]

end ScriptCircuit
