import Mathlib
import ScriptCircuit.Proofs.Plonk.Effect

/-!
# Open regions

Any number of regions that a layouter has handed out are open at once: they are filled in turns on one matrix, and tables are
written in between. Whatever is done, and whether it ends well or not, regions keep their rows, and a copy constraint waits with
its region until the region gives it to the witness.
-/

namespace ScriptCircuit

/-- However it ends, a table writes the first of its cells. -/
theorem Layouter.writeCells_prefix (name : String) (planned : Nat) (cells : List (Column × Nat × Felt)) (m : Matrix) :
    ∃ written, written <+: cells ∧ (fillTable.writeCells name planned cells m).2 = m.writeAll written := by
  induction cells generalizing m with
  | nil => exact ⟨[], List.nil_prefix, rfl⟩
  | cons cell cells ih =>
    obtain ⟨c, row, x⟩ := cell
    rw [fillTable.writeCells]
    split
    · exact ⟨[], List.nil_prefix, rfl⟩
    · split
      · obtain ⟨written, hprefix, hmatrix⟩ := ih (m.write c row x)
        exact ⟨(c, row, x) :: written, List.cons_prefix_cons.mpr ⟨rfl, hprefix⟩, hmatrix⟩
      · exact ⟨[], List.nil_prefix, rfl⟩

/-- Two regions with the same rows. -/
def Region.SameRows (r r' : Region) : Prop :=
  r'.start = r.start ∧ r'.height = r.height

/-- Regions that a layouter has handed out, filled in turns on its matrix. -/
structure OpenRegions (ι : Type) where
  region : ι → Region
  layouter : Layouter

namespace OpenRegions

variable {ι α : Type}

/-- A copy constraint is kept by the witness, or by a region until it is committed. -/
def Keeps (s : OpenRegions ι) (copies : List Copy) (copy : Copy) : Prop :=
  copy ∈ copies ∨ ∃ i, copy ∈ (s.region i).copies

/-- From one state of open regions to another the regions stay where they are, new copy constraints are enabled, and none is lost. -/
structure Follows (sys : System) (s s' : OpenRegions ι) (copies copies' : List Copy) : Prop where
  rows : ∀ i, (s.region i).SameRows (s'.region i)
  enabled : ∀ i, ∀ copy ∈ (s'.region i).copies, copy ∈ (s.region i).copies ∨ sys.Links copy.left.column copy.right.column
  kept : ∀ copy, s.Keeps copies copy → s'.Keeps copies' copy

variable {sys : System} {s s' : OpenRegions ι} {l : Layouter} {m : Matrix} {copies copies' new : List Copy} {i : ι}

/-! ## Tables and links -/

/-- Writes a table. -/
def fillTable (s : OpenRegions ι) (name : String) (cells : List (Column × Nat × Felt)) :
    Except Error (List AssignedCell) × OpenRegions ι :=
  match s.layouter.fillTable name cells with
  | (result, l) => (result.map fun _ => [], { s with layouter := l })

/-- Demands that two cells hold the same value. -/
def link (s : OpenRegions ι) (sys : System) (left right : Cell) : Except Error (List AssignedCell) × OpenRegions ι :=
  match s.layouter.constrainEqual sys left right with
  | .ok l => (.ok [], { s with layouter := l })
  | .error e => (.error e, s)

/-- Only the witness gets more copy constraints. -/
theorem Follows.same_regions (hregion : s'.region = s.region) (hsub : copies ⊆ copies') : s.Follows sys s' copies copies' := by
  refine ⟨fun j => ?_, fun j copy hcopy => .inl (hregion ▸ hcopy), fun copy hcopy => ?_⟩
  · rw [hregion]
    exact ⟨rfl, rfl⟩
  · rcases hcopy with hcopy | ⟨j, hcopy⟩
    · exact .inl (hsub hcopy)
    · exact .inr ⟨j, hregion.symm ▸ hcopy⟩

/-- A table is written up to the first cell that does not fit. -/
theorem fillTable_eq (hl : s.layouter = l.withWitness ⟨m, copies⟩) (name : String) (cells : List (Column × Nat × Felt)) :
    ∃ result written, s.fillTable name cells = (result, { s with layouter := l.withWitness ⟨m.writeAll written, copies⟩ }) ∧
      written ⊆ cells ∧ ∀ given, result = .ok given → written = cells ∧ ∀ x ∈ cells, x.2.1 < m.rows := by
  obtain ⟨written, hprefix, hmatrix⟩ := Layouter.writeCells_prefix name l.tableRows cells m
  rcases hwrite : Layouter.fillTable.writeCells name l.tableRows cells m with ⟨result, m'⟩
  rw [hwrite] at hmatrix
  change m' = m.writeAll written at hmatrix
  have hfill : s.fillTable name cells = (result.map fun _ => [], { s with layouter := l.withWitness ⟨m', copies⟩ }) := by
    unfold fillTable
    rw [hl]
    unfold Layouter.fillTable Layouter.withWitness
    dsimp only
    rw [hwrite]
  cases result with
  | error e =>
    rw [hmatrix] at hfill
    refine ⟨_, written, hfill, hprefix.subset, fun given hgiven => ?_⟩
    cases hgiven
  | ok u =>
    obtain ⟨hcells, hall⟩ := (Synthesis.writeCells_eq_ok name l.tableRows cells m m').mp hwrite
    rw [hall] at hfill
    exact ⟨_, cells, hfill, fun _ hx => hx, fun _ _ => ⟨rfl, fun x hx => (hcells x hx).2.1⟩⟩

/-- Tying two cells together only adds to the copy constraints of the witness, or fails and does nothing. -/
theorem link_eq (hl : s.layouter = l.withWitness ⟨m, copies⟩) (left right : Cell) :
    ∃ result copies', s.link sys left right = (result, { s with layouter := l.withWitness ⟨m, copies'⟩ }) ∧
      copies ⊆ copies' := by
  unfold link
  cases hadd : s.layouter.constrainEqual sys left right with
  | error e => exact ⟨.error e, copies, by rw [← hl], fun _ hcopy => hcopy⟩
  | ok l' =>
    rw [hl] at hadd
    obtain ⟨-, rfl⟩ := Synthesis.addCopies_withWitness_eq_ok.mp hadd
    exact ⟨.ok [], copies ++ [⟨left, right⟩], rfl, List.subset_append_left ..⟩

/-! ## Regions -/

variable [DecidableEq ι]

/-- Works on a region. -/
def fill (s : OpenRegions ι) (i : ι) (work : Fill α) : Except Error α × OpenRegions ι :=
  match s.layouter.fill (s.region i) work with
  | (result, r, l) => (result, ⟨Function.update s.region i r, l⟩)

/-- Commits a region. -/
def commit (s : OpenRegions ι) (sys : System) (i : ι) : Except Error (List AssignedCell) × OpenRegions ι :=
  match s.layouter.commit sys (s.region i) with
  | (.ok l, r) => (.ok [], ⟨Function.update s.region i r, l⟩)
  | (.error e, r) => (.error e, ⟨Function.update s.region i r, s.layouter⟩)

/-- One region changes its copy constraints. -/
theorem Follows.update {r : Region} (hregion : s'.region = Function.update s.region i r) (hrows : (s.region i).SameRows r)
    (henabled : ∀ copy ∈ r.copies, copy ∈ (s.region i).copies ∨ sys.Links copy.left.column copy.right.column)
    (hsub : copies ⊆ copies') (hkept : ∀ copy ∈ (s.region i).copies, copy ∈ copies' ∨ copy ∈ r.copies) :
    s.Follows sys s' copies copies' := by
  have hself : s'.region i = r := by rw [hregion, Function.update_self]
  have hother : ∀ j, j ≠ i → s'.region j = s.region j := fun j hj => by rw [hregion, Function.update_of_ne hj]
  refine ⟨fun j => ?_, fun j copy hcopy => ?_, fun copy hcopy => ?_⟩
  · by_cases hj : j = i
    · rw [hj, hself]
      exact hrows
    · rw [hother j hj]
      exact ⟨rfl, rfl⟩
  · by_cases hj : j = i
    · rw [hj, hself] at hcopy
      exact hj ▸ henabled copy hcopy
    · exact .inl (hother j hj ▸ hcopy)
  · rcases hcopy with hcopy | ⟨j, hcopy⟩
    · exact .inl (hsub hcopy)
    · by_cases hj : j = i
      · exact (hkept copy (hj ▸ hcopy)).imp_right fun h => ⟨i, hself.symm ▸ h⟩
      · exact .inr ⟨j, (hother j hj).symm ▸ hcopy⟩

/-- Work on an open region is work on the region and the matrix. -/
theorem fill_eq (hl : s.layouter = l.withWitness ⟨m, copies⟩) {work : Fill α} {result : Except Error α} {t : Filling}
    (hrun : work.run ⟨s.region i, m⟩ = (result, t)) :
    s.fill i work = (result, ⟨Function.update s.region i t.region, l.withWitness ⟨t.matrix, copies⟩⟩) := by
  unfold fill
  rw [hl]
  unfold Layouter.fill Layouter.withWitness
  dsimp only
  rw [hrun]

/-- A region with enabled copy constraints hands them to the witness. -/
theorem commit_eq (hl : s.layouter = l.withWitness ⟨m, copies⟩)
    (henabled : ∀ copy ∈ (s.region i).copies, sys.Links copy.left.column copy.right.column) :
    s.commit sys i = (.ok [], ⟨Function.update s.region i { s.region i with copies := [] },
      l.withWitness ⟨m, copies ++ (s.region i).copies⟩⟩) := by
  have hcommit : s.layouter.addCopies sys (s.region i).copies =
      .ok (l.withWitness ⟨m, copies ++ (s.region i).copies⟩) := by
    rw [hl]
    exact Synthesis.addCopies_withWitness_eq_ok.mpr ⟨henabled, rfl⟩
  unfold commit Layouter.commit
  rw [hcommit]

/-- Work on a region adds copy constraints. -/
theorem Follows.fill {new : List (Column × Nat × Felt)} {links : List Copy}
    (hlinks : ∀ copy ∈ links, sys.Links copy.left.column copy.right.column) :
    s.Follows sys ⟨Function.update s.region i ((Filling.mk (s.region i) m).wrote new links).region, l⟩ copies copies :=
  .update rfl ⟨rfl, rfl⟩ (fun copy hcopy => (List.mem_append.mp hcopy).imp_right (hlinks copy)) (fun _ h => h)
    fun _ hcopy => .inr (List.mem_append_left _ hcopy)

end OpenRegions

end ScriptCircuit
