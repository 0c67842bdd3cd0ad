import Mathlib
import ScriptCircuit.Proofs.Plonk.Synthesis

/-!
# The floor plan

Planned regions are stacked from row 0 in the order of their planning, so the rows of two of them never meet, and the matrix
that is allocated is as low as a power of two can be. Rows are words of 64 bits; the stack does not wrap around as long as it
is no higher than half of them.
-/

namespace ScriptCircuit

open MatrixAux

/-- A call that plans. -/
inductive PlanCall where
  | region (name : String) (height : Nat)
  | table (name : String) (rows : Nat)

namespace PlanCall

/-- The work of a call. Planning a region gives its number. -/
def work : PlanCall → Synthesis (Option Nat)
  | region name height => do
    let number ← Synthesis.planRegion name height
    return some number
  | table name rows => do
    Synthesis.planTable name rows
    return none

/-- The region a call plans, by name and height. -/
def region? : PlanCall → Option (String × Nat)
  | region name height => some (name, height)
  | table .. => none

/-- The size of the table a call plans. -/
def table? : PlanCall → Option Nat
  | region .. => none
  | table _ rows => some rows

/-- The regions that calls plan, in order. -/
def regions (calls : List PlanCall) : List (String × Nat) :=
  calls.filterMap region?

/-- The sizes of the tables that calls plan. -/
def tables (calls : List PlanCall) : List Nat :=
  calls.filterMap table?

/-- The height of all regions together. -/
def height (calls : List PlanCall) : Nat :=
  ((regions calls).map Prod.snd).sum

/-- A region adds its rows to the height of a plan. -/
theorem height_cons_region (name : String) (rows : Nat) (calls : List PlanCall) :
    height (region name rows :: calls) = rows + height calls := by
  simp [height, regions, region?]

end PlanCall

/-- Plans regions and tables, and allocates the matrix. -/
def Synthesis.plan (sys : System) (calls : List PlanCall) : Synthesis (List (Option Nat)) := do
  let numbers ← calls.mapM PlanCall.work
  allocate sys
  return numbers

namespace Layouter

/-- Regions that follow each other from a row. -/
def stack (start : Nat) : List (String × Nat) → List PlannedRegion
  | [] => []
  | (name, height) :: rest => ⟨name, start, height⟩ :: stack (start + height) rest

/-- Stacked regions keep their names and heights. -/
theorem map_stack (start : Nat) (regions : List (String × Nat)) :
    (stack start regions).map (fun p => (p.name, p.height)) = regions := by
  induction regions generalizing start with
  | nil => rfl
  | cons region rest ih => rw [stack, List.map_cons, ih]

/-- The rows of a stack lie behind its first row and within its height. -/
theorem rows_of_mem_stack {start : Nat} {regions : List (String × Nat)} {p : PlannedRegion} (hp : p ∈ stack start regions) :
    start ≤ p.start ∧ p.start + p.height ≤ start + (regions.map Prod.snd).sum := by
  induction regions generalizing start with
  | nil => cases hp
  | cons region rest ih =>
    rw [List.map_cons, List.sum_cons]
    rcases List.mem_cons.mp hp with rfl | hp
    · exact ⟨Nat.le_refl _, Nat.add_le_add_left (Nat.le_add_right ..) _⟩
    · obtain ⟨hlow, hhigh⟩ := ih hp
      omega

/-- A region of a stack ends before the later ones start. -/
theorem pairwise_stack (start : Nat) (regions : List (String × Nat)) :
    (stack start regions).Pairwise fun p q => p.start + p.height ≤ q.start := by
  induction regions generalizing start with
  | nil => exact .nil
  | cons region rest ih => exact List.pairwise_cons.mpr ⟨fun q hq => (rows_of_mem_stack hq).1, ih _⟩

/-- A region ends no later than the ones planned behind it start. -/
theorem stack_below {start number number' : Nat} {regions : List (String × Nat)} {p p' : PlannedRegion}
    (hlt : number < number') (hp : (stack start regions)[number]? = some p)
    (hp' : (stack start regions)[number']? = some p') : p.start + p.height ≤ p'.start := by
  obtain ⟨_, rfl⟩ := List.getElem?_eq_some_iff.mp hp
  obtain ⟨_, rfl⟩ := List.getElem?_eq_some_iff.mp hp'
  exact List.pairwise_iff_getElem.mp (pairwise_stack start regions) _ _ _ _ hlt

/-- The layouter behind calls that plan. -/
def planned (l : Layouter) (calls : List PlanCall) : Layouter where
  regions := l.regions ++ stack l.nextRow (PlanCall.regions calls)
  nextRow := l.nextRow + PlanCall.height calls
  tableRows := (PlanCall.tables calls).foldl max l.tableRows
  witness? := l.witness?

/-- One call behind which more follow. -/
theorem planned_behind (l : Layouter) (name : String) (height : Nat) (calls : List PlanCall)
    (hword : l.nextRow + height < UInt64.size) :
    (l.behind name height).planned calls = l.planned (.region name height :: calls) := by
  have hnext : (l.nextRow + height) % UInt64.size = l.nextRow + height := Nat.mod_eq_of_lt hword
  simp only [planned, behind, hnext, PlanCall.height_cons_region, Nat.add_assoc]
  simp only [PlanCall.regions, PlanCall.tables, List.filterMap_cons, PlanCall.region?, PlanCall.table?, stack,
    List.append_assoc, List.singleton_append]

/-- The least power of two that is not below a number. -/
theorem powerOfTwoFrom_isLeast (n : Nat) : IsLeast {x | n ≤ x ∧ ∃ k, x = 2 ^ k} (powerOfTwoFrom n) := by
  refine ⟨⟨(powerOfTwoFrom_bounds n).1, ?_⟩, ?_⟩
  · unfold powerOfTwoFrom
    split
    · exact ⟨0, rfl⟩
    · exact ⟨_, Nat.one_shiftLeft _⟩
  · rintro _ ⟨hle, k, rfl⟩
    unfold powerOfTwoFrom
    split
    · exact Nat.one_le_two_pow
    · rename_i hn
      rw [Nat.one_shiftLeft]
      exact Nat.pow_le_pow_right Nat.two_pos ((Nat.log2_lt (by omega)).mpr (by omega))

end Layouter

namespace Synthesis

variable {l : Layouter}

/-- Before allocation the plan of a region ends well. -/
theorem ends_work_region (hw : l.witness? = none) (name : String) (height : Nat) :
    (PlanCall.region name height).work.Ends l (some l.regions.length) (l.behind name height) :=
  ends_bind.mpr ⟨_, _, ends_planRegion.mpr ⟨hw, rfl, rfl⟩, ends_pure.mpr ⟨rfl, rfl⟩⟩

/-- Before allocation the plan of a table ends well. -/
theorem ends_work_table (hw : l.witness? = none) (name : String) (rows : Nat) :
    (PlanCall.table name rows).work.Ends l none (l.withTable rows) :=
  ends_bind.mpr ⟨(), _, ends_planTable.mpr ⟨hw, rfl⟩, ends_pure.mpr ⟨rfl, rfl⟩⟩

/-- Plans end well one after the other. -/
theorem ends_works_cons {call : PlanCall} {calls : List PlanCall} {l' l'' : Layouter} {number : Option Nat}
    {numbers : List (Option Nat)} (hcall : call.work.Ends l number l') (hcalls : (calls.mapM PlanCall.work).Ends l' numbers l'') :
    ((call :: calls).mapM PlanCall.work).Ends l (number :: numbers) l'' := by
  rw [List.mapM_cons]
  exact ends_bind.mpr ⟨_, _, hcall, ends_bind.mpr ⟨_, _, hcalls, ends_pure.mpr ⟨rfl, rfl⟩⟩⟩

/-- Planning gives the numbers of the regions in order and stacks the regions, as long as the rows are words. -/
theorem ends_works {calls : List PlanCall} (hw : l.witness? = none) (hword : l.nextRow + PlanCall.height calls < UInt64.size) :
    ∃ numbers, (calls.mapM PlanCall.work).Ends l numbers (l.planned calls) ∧
      numbers.reduceOption = List.range' l.regions.length (PlanCall.regions calls).length := by
  induction calls generalizing l with
  | nil =>
    refine ⟨[], ends_pure.mpr ⟨rfl, ?_⟩, rfl⟩
    simp [Layouter.planned, PlanCall.regions, PlanCall.height, PlanCall.tables, Layouter.stack]
  | cons call calls ih =>
    cases call with
    | region name height =>
      rw [PlanCall.height_cons_region] at hword
      have hone : l.nextRow + height < UInt64.size := by omega
      have hnext : (l.behind name height).nextRow = l.nextRow + height := Nat.mod_eq_of_lt hone
      obtain ⟨numbers, hends, hnumbers⟩ := ih (l := l.behind name height) hw (by rw [hnext]; omega)
      rw [l.planned_behind name height calls hone] at hends
      refine ⟨_, ends_works_cons (ends_work_region hw name height) hends, ?_⟩
      simp [hnumbers, PlanCall.regions, PlanCall.region?, Layouter.behind, List.range'_succ]
    | table name rows =>
      obtain ⟨numbers, hends, hnumbers⟩ := ih (l := l.withTable rows) hw hword
      exact ⟨_, ends_works_cons (ends_work_table hw name rows) hends, hnumbers⟩

end Synthesis

/-- The layouter behind a plan, with a zero matrix. -/
def Layouter.laidOut (sys : System) (calls : List PlanCall) : Layouter :=
  let l := planned ∅ calls
  l.withWitness ⟨.zero sys l.rows, []⟩

namespace Layouter

variable {sys : System} {calls : List PlanCall}

/-- A plan no higher than half of the words ends well, and its regions are numbered in order. -/
theorem ends_plan (sys : System) (hheight : PlanCall.height calls ≤ 2 ^ 63) :
    ∃ numbers, (Synthesis.plan sys calls).Ends ∅ numbers (laidOut sys calls) ∧
      numbers.reduceOption = List.range (PlanCall.regions calls).length := by
  have hword : (∅ : Layouter).nextRow + PlanCall.height calls < UInt64.size := by
    change 0 + _ < 2 ^ 64
    omega
  obtain ⟨numbers, hends, hnumbers⟩ := Synthesis.ends_works (l := ∅) rfl hword
  refine ⟨numbers, Synthesis.ends_bind.mpr ⟨_, _, hends, ?_⟩, by rw [hnumbers, List.range_eq_range']; rfl⟩
  exact Synthesis.ends_bind.mpr ⟨(), _, Synthesis.ends_allocate.mpr ⟨rfl, rfl⟩, Synthesis.ends_pure.mpr ⟨rfl, rfl⟩⟩

/-- The region that the layouter hands out under a number. -/
theorem region_laidOut {number : Nat} {r : Region} :
    (laidOut sys calls).region number = .ok r ↔
      ∃ p, (stack 0 (PlanCall.regions calls))[number]? = some p ∧ r = ⟨p.name, p.start, p.height, []⟩ := by
  have hstack : (laidOut sys calls).regions = stack 0 (PlanCall.regions calls) := rfl
  unfold region
  rw [hstack]
  cases (stack 0 (PlanCall.regions calls))[number]? with
  | none => exact iff_of_false (by nofun) fun ⟨_, h, _⟩ => nomatch h
  | some p =>
    simp only [Option.some.injEq, exists_eq_left']
    exact except_ok_eq_ok

/-- Regions that are handed out do not reach beyond the planned rows. -/
theorem end_le_height {number : Nat} {r : Region} (hr : (laidOut sys calls).region number = .ok r) :
    r.start + r.height ≤ PlanCall.height calls := by
  obtain ⟨p, hp, rfl⟩ := region_laidOut.mp hr
  exact (Nat.zero_add (PlanCall.height calls)) ▸ (rows_of_mem_stack (List.mem_of_getElem? hp)).2

/-- Regions that are handed out hold no copy constraints yet. -/
theorem copies_of_region {number : Nat} {r : Region} (hr : (laidOut sys calls).region number = .ok r) : r.copies = [] := by
  obtain ⟨p, -, rfl⟩ := region_laidOut.mp hr
  rfl

/-- A running maximum is bounded when the start and every entry are. -/
theorem foldl_max_le {xs : List Nat} {a bound : Nat} : xs.foldl max a ≤ bound ↔ a ≤ bound ∧ ∀ x ∈ xs, x ≤ bound := by
  induction xs generalizing a with
  | nil => simp
  | cons x xs ih => rw [List.foldl_cons, ih, max_le_iff, List.forall_mem_cons, and_assoc]

/-- The rows of a plan are bounded when its regions together and every table are. -/
theorem max_laidOut_le {bound : Nat} :
    max (laidOut sys calls).nextRow (laidOut sys calls).tableRows ≤ bound ↔
      PlanCall.height calls ≤ bound ∧ ∀ rows ∈ PlanCall.tables calls, rows ≤ bound := by
  have hnext : (laidOut sys calls).nextRow = PlanCall.height calls := Nat.zero_add _
  have htables : (laidOut sys calls).tableRows = (PlanCall.tables calls).foldl max 0 := rfl
  rw [max_le_iff, hnext, htables, foldl_max_le, and_iff_right (Nat.zero_le bound)]

end Layouter

/-- A row lies in a region. -/
def Region.Covers (r : Region) (row : Nat) : Prop :=
  r.start ≤ row ∧ row < r.start + r.height

/-- A layouter has room for a plan: a zero matrix, as low as a power of two can be, with a region for every planned one, and
no row in two regions. -/
structure Layouter.Houses (l : Layouter) (sys : System) (calls : List PlanCall) : Prop where
  rows : IsLeast {rows | (PlanCall.height calls ≤ rows ∧ ∀ table ∈ PlanCall.tables calls, table ≤ rows) ∧ ∃ k, rows = 2 ^ k}
    l.rows
  word : l.rows ≤ 2 ^ 63
  witness : l.witness = .ok ⟨.zero sys l.rows, []⟩
  regions : ∀ number name height, (PlanCall.regions calls)[number]? = some (name, height) →
    ∃ start, l.region number = .ok ⟨name, start, height, []⟩ ∧ start + height ≤ l.rows
  apart : ∀ number number' r r', number ≠ number' → l.region number = .ok r → l.region number' = .ok r' →
    ∀ row, ¬(r.Covers row ∧ r'.Covers row)

/-- A plan that is carried out is housed: its regions are disjoint, lie in the matrix and keep the heights they asked for. -/
theorem Layouter.houses_laidOut {calls : List PlanCall} (sys : System) (hheight : PlanCall.height calls ≤ 2 ^ 63)
    (htables : ∀ rows ∈ PlanCall.tables calls, rows ≤ 2 ^ 63) : (laidOut sys calls).Houses sys calls := by
  have hleast : IsLeast _ (laidOut sys calls).rows := powerOfTwoFrom_isLeast _
  simp only [max_laidOut_le] at hleast
  refine ⟨hleast, hleast.2 ⟨⟨hheight, htables⟩, 63, rfl⟩, rfl, ?_, ?_⟩
  · intro number name height hregion
    have hmap := congrArg (·[number]?) (map_stack 0 (PlanCall.regions calls))
    rw [hregion] at hmap
    obtain ⟨p, hp, hname⟩ := Option.map_eq_some_iff.mp (List.getElem?_map.symm.trans hmap)
    obtain ⟨rfl, rfl⟩ := Prod.mk.inj hname
    have hr : (laidOut sys calls).region number = .ok _ := region_laidOut.mpr ⟨p, hp, rfl⟩
    exact ⟨p.start, hr, (end_le_height hr).trans hleast.1.1.1⟩
  · rintro number number' r r' hne hr hr' row ⟨⟨hlow, hhigh⟩, ⟨hlow', hhigh'⟩⟩
    obtain ⟨p, hp, rfl⟩ := region_laidOut.mp hr
    obtain ⟨p', hp', rfl⟩ := region_laidOut.mp hr'
    dsimp only at hlow hhigh hlow' hhigh'
    rcases Nat.lt_or_gt_of_ne hne with hlt | hlt
    · have hbelow := stack_below hlt hp hp'
      omega
    · have hbelow := stack_below hlt hp' hp
      omega

end ScriptCircuit
