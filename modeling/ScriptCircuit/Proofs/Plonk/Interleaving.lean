import Mathlib
import ScriptCircuit.Proofs.Plonk.OpenRegions

/-!
# Regions filled side by side

Two regions of one matrix are filled by two sequences of calls, in any order that keeps each sequence. A call fails on its
own: what it did before stays and the calls behind it are still made. Every call has an effect that does not depend on what
the matrix holds, so the order shows nowhere but in the order of the writes, and writes to different regions can be
exchanged.
-/

namespace ScriptCircuit

/-- A call on a region. -/
inductive RegionCall where
  | assignAdvice (column : Column) (offset : Nat) (x : Felt)
  | assignFixed (column : Column) (offset : Nat) (x : Felt)
  | enable (selector : Column) (offset : Nat)
  | copyAdvice (source : AssignedCell) (column : Column) (offset : Nat)
  | constrainEqual (left right : Cell)

namespace RegionCall

/-- The work of a call, with the cell it gives back. -/
def work (sys : System) : RegionCall → Fill (Option AssignedCell)
  | assignAdvice column offset x => do
    let assigned ← Fill.assignAdvice column offset x
    return some assigned
  | assignFixed column offset x => do
    let assigned ← Fill.assignFixed column offset x
    return some assigned
  | enable selector offset => do
    Fill.enable selector offset
    return none
  | copyAdvice source column offset => do
    let copied ← Fill.copyAdvice sys source column offset
    return some copied
  | constrainEqual left right => do
    Fill.constrainEqual sys left right
    return none

/-- No call on a region looks at the matrix. -/
theorem blind_work (sys : System) (call : RegionCall) : (call.work sys).Blind sys := by
  cases call with
  | assignAdvice column offset x => exact (Fill.blind_assignAdvice column offset x).bind fun _ => Fill.blind_pure _
  | assignFixed column offset x => exact (Fill.blind_assignFixed column offset x).bind fun _ => Fill.blind_pure _
  | enable selector offset =>
    have henable : (Fill.enable selector offset).Blind sys :=
      (Fill.blind_assign selector offset 1).bind fun _ => Fill.blind_pure ()
    exact henable.bind fun _ => Fill.blind_pure _
  | copyAdvice source column offset => exact (Fill.blind_copyAdvice source column offset).bind fun _ => Fill.blind_pure _
  | constrainEqual left right => exact (Fill.blind_constrainEqual left right).bind fun _ => Fill.blind_pure _

end RegionCall

/-- One of two. -/
inductive Side where
  | left
  | right
deriving DecidableEq

namespace Side

variable {α β : Type}

/-- What a list holds of one side. -/
def of (side : Side) (xs : List (Side × α)) : List α :=
  xs.filterMap fun x => if x.1 = side then some x.2 else none

/-- What belongs to a side. -/
def pick (side : Side) (ofLeft ofRight : α) : α :=
  match side with
  | left => ofLeft
  | right => ofRight

/-- What holds of both sides holds of the one picked. -/
theorem forall_pick {p : α → Prop} {ofLeft ofRight : α} (hleft : p ofLeft) (hright : p ofRight) (side : Side) :
    p (side.pick ofLeft ofRight) := by
  cases side with
  | left => exact hleft
  | right => exact hright

/-- A list of the left side before one of the right side. -/
def leftFirst (lefts rights : List α) : List (Side × α) :=
  lefts.map (Prod.mk left) ++ rights.map (Prod.mk right)

/-- A list of the right side before one of the left side. -/
def rightFirst (lefts rights : List α) : List (Side × α) :=
  rights.map (Prod.mk right) ++ lefts.map (Prod.mk left)

theorem of_cons_self (side : Side) (x : α) (xs : List (Side × α)) : side.of ((side, x) :: xs) = x :: side.of xs :=
  List.filterMap_cons_some (if_pos rfl)

/-- A side passes over an entry of the other side. -/
theorem of_cons_ne {side side' : Side} (h : side' ≠ side) (x : α) (xs : List (Side × α)) :
    side.of ((side', x) :: xs) = side.of xs :=
  List.filterMap_cons_none (if_neg h)

/-- A side finds its entries mapped when all are. -/
theorem of_map (side : Side) (f : Side → α → β) (xs : List (Side × α)) :
    side.of (xs.map fun x => (x.1, f x.1 x.2)) = (side.of xs).map (f side) := by
  rw [of, of, List.filterMap_map, List.map_filterMap]
  refine List.filterMap_congr fun x _ => ?_
  by_cases h : x.1 = side
  · simp [h]
  · simp [h]

end Side

/-- A list is made of a list of the left side and a list of the right side, each in its order. -/
inductive Interleaving {α : Type} : List α → List α → List (Side × α) → Prop
  | nil : Interleaving [] [] []
  | left {x : α} {lefts rights : List α} {mixed : List (Side × α)} (h : Interleaving lefts rights mixed) :
      Interleaving (x :: lefts) rights ((.left, x) :: mixed)
  | right {x : α} {lefts rights : List α} {mixed : List (Side × α)} (h : Interleaving lefts rights mixed) :
      Interleaving lefts (x :: rights) ((.right, x) :: mixed)

namespace Interleaving

variable {α : Type}

/-- Each side finds its list in order. -/
theorem of_eq {lefts rights : List α} {mixed : List (Side × α)} (h : Interleaving lefts rights mixed) (side : Side) :
    side.of mixed = side.pick lefts rights := by
  induction h with
  | nil => cases side <;> rfl
  | left _ ih =>
    cases side with
    | left => rw [Side.of_cons_self, ih]; rfl
    | right => rw [Side.of_cons_ne (by nofun), ih]; rfl
  | right _ ih =>
    cases side with
    | left => rw [Side.of_cons_ne (by nofun), ih]; rfl
    | right => rw [Side.of_cons_self, ih]; rfl

/-- A list of the left side alone is an interleaving. -/
theorem lefts (xs : List α) : Interleaving xs [] (xs.map (Prod.mk .left)) := by
  induction xs with
  | nil => exact .nil
  | cons x xs ih => exact .left ih

/-- A list of the right side alone is an interleaving. -/
theorem rights (xs : List α) : Interleaving [] xs (xs.map (Prod.mk .right)) := by
  induction xs with
  | nil => exact .nil
  | cons x xs ih => exact .right ih

/-- The left side before the right one is an interleaving. -/
theorem leftFirst (lefts rights : List α) : Interleaving lefts rights (Side.leftFirst lefts rights) := by
  induction lefts with
  | nil => exact Interleaving.rights rights
  | cons x lefts ih => exact .left ih

/-- The right side before the left one is an interleaving. -/
theorem rightFirst (lefts rights : List α) : Interleaving lefts rights (Side.rightFirst lefts rights) := by
  induction rights with
  | nil => exact Interleaving.lefts lefts
  | cons x rights ih => exact .right ih

end Interleaving

namespace OpenRegions

/-- Calls on open regions one after the other, with the results of all. -/
def callAll {ι : Type} [DecidableEq ι] (sys : System) (s : OpenRegions ι) :
    List (ι × RegionCall) → List (ι × Except Error (Option AssignedCell)) × OpenRegions ι
  | [] => ([], s)
  | (i, call) :: calls =>
    match s.fill i (call.work sys) with
    | (result, s') =>
      match s'.callAll sys calls with
      | (results, s'') => ((i, result) :: results, s'')

/-- Commits two open regions, one after the other. -/
def commitBoth (sys : System) (s : OpenRegions Side) (first second : Side) : Except Error Layouter := do
  let l ← (s.layouter.commit sys (s.region first)).1
  (l.commit sys (s.region second)).1

/-- Two open regions on a layouter. -/
def pair (left right : Region) (l : Layouter) : OpenRegions Side where
  region side := side.pick left right
  layouter := l

/-! ## What calls do -/

variable {sys : System} {l : Layouter} {m : Matrix} {copies : List Copy} {region : Side → Region}
variable {base : Side → Filling} {effect : Side → RegionCall → Effect (Option AssignedCell)}

/-- A call does what its effect says. -/
theorem fill_of_acts {side : Side} {call : RegionCall} {s : Filling} {e : Effect (Option AssignedCell)}
    (he : (call.work sys).Acts sys s e) (hlike : s.Like ⟨region side, m⟩) :
    (OpenRegions.mk region (l.withWitness ⟨m, copies⟩)).fill side (call.work sys) =
      (e.result, ⟨Function.update region side ((region side).link e.copies), l.withWitness ⟨m.writeAll e.cells, copies⟩⟩) :=
  fill_eq rfl (he.2 _ hlike)

/-- A call leaves the names, the rows and the shape that the effects of calls depend on. -/
theorem like_update (hlike : ∀ side, (base side).Like ⟨region side, m⟩) (side : Side) (e : Effect (Option AssignedCell))
    (other : Side) :
    (base other).Like ⟨Function.update region side ((region side).link e.copies) other, m.writeAll e.cells⟩ := by
  by_cases hside : other = side
  · subst hside
    rw [Function.update_self]
    exact (hlike other).wrote e.cells e.copies
  · rw [Function.update_of_ne hside]
    have hother := (hlike other).wrote e.cells []
    rwa [Filling.wrote, Region.link_nil] at hother

/-- Calls do what their effects say: they give their results, link their region and write the matrix. -/
theorem callAll_eq (heffect : ∀ side call, (RegionCall.work sys call).Acts sys (base side) (effect side call))
    (hlike : ∀ side, (base side).Like ⟨region side, m⟩) (calls : List (Side × RegionCall)) :
    (OpenRegions.mk region (l.withWitness ⟨m, copies⟩)).callAll sys calls =
      (calls.map fun x => (x.1, (effect x.1 x.2).result),
        ⟨fun side => (region side).link ((side.of calls).flatMap fun call => (effect side call).copies),
          l.withWitness ⟨m.writeAll (calls.flatMap fun x => (effect x.1 x.2).cells), copies⟩⟩) := by
  induction calls generalizing region m with
  | nil =>
    have hregion : (fun side => (region side).link ((side.of []).flatMap fun call => (effect side call).copies)) = region :=
      funext fun side => (region side).link_nil
    rw [hregion]
    rfl
  | cons x calls ih =>
    obtain ⟨side, call⟩ := x
    have hlike' := like_update hlike side (effect side call)
    simp only [callAll, fill_of_acts (heffect side call) (hlike side), ih hlike', List.map_cons, List.flatMap_cons,
      Matrix.writeAll_append]
    refine congrArg (fun region => (_, OpenRegions.mk region _)) (funext fun other => ?_)
    by_cases hside : other = side
    · subst hside
      rw [Function.update_self, Region.link_link, Side.of_cons_self, List.flatMap_cons]
    · rw [Function.update_of_ne hside, Side.of_cons_ne (Ne.symm hside)]

/-! ## Two sequences of calls -/

/-- Writes of the right side that are done between writes of the left side might as well be done behind them. -/
theorem writeAll_interleaving
    (hapart : ∀ call call', ∀ cell ∈ (effect .left call).cells, ∀ cell' ∈ (effect .right call').cells, cell.2.1 ≠ cell'.2.1)
    {lefts rights : List RegionCall} {mixed : List (Side × RegionCall)} (h : Interleaving lefts rights mixed) (m : Matrix) :
    m.writeAll (mixed.flatMap fun x => (effect x.1 x.2).cells) =
      (m.writeAll (lefts.flatMap fun call => (effect .left call).cells)).writeAll
        (rights.flatMap fun call => (effect .right call).cells) := by
  induction h generalizing m with
  | nil => rfl
  | @left call lefts rights mixed _ ih =>
    rw [List.flatMap_cons, List.flatMap_cons, Matrix.writeAll_append, Matrix.writeAll_append, ih]
  | @right call lefts rights mixed _ ih =>
    have hcells : ∀ cell ∈ lefts.flatMap (fun call => (effect .left call).cells), ∀ cell' ∈ (effect .right call).cells,
        cell.2.1 ≠ cell'.2.1 := by
      intro cell hcell cell' hcell'
      obtain ⟨call', -, hcell⟩ := List.mem_flatMap.mp hcell
      exact hapart call' call cell hcell cell' hcell'
    rw [List.flatMap_cons, List.flatMap_cons, Matrix.writeAll_append, Matrix.writeAll_append, ih,
      m.writeAll_comm hcells]

/-- Every interleaving of two sequences of calls on regions without common rows has one and the same outcome. -/
theorem exists_outcome (sys : System) (l : Layouter) (m : Matrix) (copies : List Copy) {region : Side → Region}
    (hwords : ∀ side, (region side).start + (region side).height ≤ UInt64.size)
    (hdisjoint : ∀ row, ¬((region .left).Covers row ∧ (region .right).Covers row)) (lefts rights : List RegionCall) :
    ∃ (results : Side → List (Except Error (Option AssignedCell))) (links : Side → List Copy) (matrix : Matrix),
      (∀ mixed, Interleaving lefts rights mixed →
        ((OpenRegions.mk region (l.withWitness ⟨m, copies⟩)).callAll sys mixed).2 =
            ⟨fun side => (region side).link (links side), l.withWitness ⟨matrix, copies⟩⟩ ∧
          ∀ side, side.of ((OpenRegions.mk region (l.withWitness ⟨m, copies⟩)).callAll sys mixed).1 = results side) ∧
      (∀ side, ∀ copy ∈ links side, sys.Links copy.left.column copy.right.column) ∧
      ∀ column row, ¬(region .left).Covers row → ¬(region .right).Covers row → matrix.get column row = m.get column row := by
  have hacts : ∀ side call, ∃ e, (RegionCall.work sys call).Acts sys ⟨region side, m⟩ e :=
    fun side call => RegionCall.blind_work sys call _ (hwords side)
  choose effect heffect using hacts
  have hlike : ∀ side, Filling.Like ⟨region side, m⟩ ⟨region side, m⟩ := fun side => ⟨rfl, rfl, rfl, rfl, fun _ => Iff.rfl⟩
  have hcovers : ∀ side call, ∀ cell ∈ (effect side call).cells, (region side).Covers cell.2.1 :=
    fun side call => (heffect side call).1.cells
  have hapart : ∀ call call', ∀ cell ∈ (effect .left call).cells, ∀ cell' ∈ (effect .right call').cells,
      cell.2.1 ≠ cell'.2.1 := fun call call' cell hcell cell' hcell' hrow =>
    hdisjoint cell.2.1 ⟨hcovers .left call cell hcell, hrow ▸ hcovers .right call' cell' hcell'⟩
  refine ⟨fun side => (side.pick lefts rights).map fun call => (effect side call).result,
    fun side => (side.pick lefts rights).flatMap fun call => (effect side call).copies,
    (m.writeAll (lefts.flatMap fun call => (effect .left call).cells)).writeAll
      (rights.flatMap fun call => (effect .right call).cells), fun mixed hmixed => ?_, fun side copy hcopy => ?_,
    fun column row hleft hright => ?_⟩
  · rw [callAll_eq heffect hlike mixed, writeAll_interleaving hapart hmixed m]
    simp only [hmixed.of_eq, true_and]
    intro side
    rw [Side.of_map side fun side call => (effect side call).result, hmixed.of_eq]
  · obtain ⟨call, -, hcopy⟩ := List.mem_flatMap.mp hcopy
    exact (heffect side call).1.copies copy hcopy
  · rw [← Matrix.writeAll_append]
    refine m.get_writeAll_of_forall_ne column fun cell hcell hrow => ?_
    rcases List.mem_append.mp hcell with hcell | hcell
    · obtain ⟨call, -, hcell⟩ := List.mem_flatMap.mp hcell
      exact hleft (hrow ▸ hcovers .left call cell hcell)
    · obtain ⟨call, -, hcell⟩ := List.mem_flatMap.mp hcell
      exact hright (hrow ▸ hcovers .right call cell hcell)

/-- Both regions are committed when their copy constraints are enabled. -/
theorem commitBoth_eq {region : Side → Region}
    (hlinks : ∀ side, ∀ copy ∈ (region side).copies, sys.Links copy.left.column copy.right.column) (first second : Side) :
    (OpenRegions.mk region (l.withWitness ⟨m, copies⟩)).commitBoth sys first second =
      .ok (l.withWitness ⟨m, copies ++ (region first).copies ++ (region second).copies⟩) := by
  have hone : ∀ copies side, ((l.withWitness ⟨m, copies⟩).commit sys (region side)).1 =
      .ok (l.withWitness ⟨m, copies ++ (region side).copies⟩) := by
    intro copies side
    exact Synthesis.addCopies_withWitness_eq_ok.mpr ⟨hlinks side, rfl⟩
  unfold commitBoth
  dsimp only
  rw [hone copies first]
  exact hone _ second

end OpenRegions

/-- Regions are disjoint and can be filled in any order. A plan no higher than half of the words succeeds and leaves a
layouter that houses it; there calls on two regions, failing ones included, have the same results and leave the same regions
and the same matrix in every interleaving as one region after the other, write nothing outside both regions, and leave
regions that can be committed in both orders. -/
theorem Layouter.regions_interleave (sys : System) {calls : List PlanCall} (hheight : PlanCall.height calls ≤ 2 ^ 63)
    (htables : ∀ rows ∈ PlanCall.tables calls, rows ≤ 2 ^ 63) :
    ∃ numbers l, (Synthesis.plan sys calls).Ends ∅ numbers l ∧
      numbers.reduceOption = List.range (PlanCall.regions calls).length ∧ l.Houses sys calls ∧
      ∀ number number' r r', number ≠ number' → l.region number = .ok r → l.region number' = .ok r' →
        ∀ w lefts rights mixed, Interleaving lefts rights mixed →
          let opened := OpenRegions.pair r r' (l.withWitness w)
          let filled := (opened.callAll sys mixed).2
          (∀ order ∈ [Side.leftFirst lefts rights, Side.rightFirst lefts rights],
            filled = (opened.callAll sys order).2 ∧
              ∀ side : Side, side.of (opened.callAll sys mixed).1 = side.of (opened.callAll sys order).1) ∧
          ∃ matrix copies copies', filled.layouter = l.withWitness ⟨matrix, w.copies⟩ ∧
            (∀ column row, ¬r.Covers row → ¬r'.Covers row → matrix.get column row = w.matrix.get column row) ∧
            filled.commitBoth sys .left .right = .ok (l.withWitness ⟨matrix, copies⟩) ∧
            filled.commitBoth sys .right .left = .ok (l.withWitness ⟨matrix, copies'⟩) ∧ copies.Perm copies' := by
  obtain ⟨numbers, hends, hnumbers⟩ := Layouter.ends_plan sys hheight
  have hhouses := Layouter.houses_laidOut sys hheight htables
  refine ⟨numbers, _, hends, hnumbers, hhouses, ?_⟩
  intro number number' r r' hne hr hr' w lefts rights mixed hmixed opened filled
  have hword : PlanCall.height calls ≤ UInt64.size := hheight.trans (by decide)
  have hwords := Side.forall_pick (p := fun r : Region => r.start + r.height ≤ UInt64.size)
    ((end_le_height hr).trans hword) ((end_le_height hr').trans hword)
  have hfresh := Side.forall_pick (p := fun r : Region => r.copies = []) (copies_of_region hr) (copies_of_region hr')
  obtain ⟨results, links, matrix, houtcome, hlinks, hget⟩ :=
    OpenRegions.exists_outcome sys (laidOut sys calls) w.matrix w.copies hwords (hhouses.apart number number' r r' hne hr hr')
      lefts rights
  obtain ⟨hfilled, hresults⟩ := houtcome mixed hmixed
  have hcopies : ∀ side : Side, ((side.pick r r').link (links side)).copies = links side := fun side => by
    rw [Region.link, hfresh side, List.nil_append]
  have hcommit : ∀ first second, filled.commitBoth sys first second =
      .ok ((laidOut sys calls).withWitness ⟨matrix, w.copies ++ links first ++ links second⟩) := by
    intro first second
    have hboth : (OpenRegions.mk (fun side => (side.pick r r').link (links side))
        ((laidOut sys calls).withWitness ⟨matrix, w.copies⟩)).commitBoth sys first second = _ :=
      OpenRegions.commitBoth_eq (fun side => (hcopies side).symm ▸ hlinks side) first second
    rw [hcopies, hcopies, ← hfilled] at hboth
    exact hboth
  refine ⟨?_, matrix, _, _, congrArg OpenRegions.layouter hfilled, hget, hcommit .left .right, hcommit .right .left, ?_⟩
  · intro order horder
    have hinterleaving : Interleaving lefts rights order := by
      rcases List.mem_pair.mp horder with rfl | rfl
      · exact Interleaving.leftFirst lefts rights
      · exact Interleaving.rightFirst lefts rights
    obtain ⟨hfilled', hresults'⟩ := houtcome order hinterleaving
    exact ⟨hfilled.trans hfilled'.symm, fun side => (hresults side).trans (hresults' side).symm⟩
  · rw [List.append_assoc, List.append_assoc]
    exact List.perm_append_comm.append_left _

/-- Two regions with a table between them. -/
def PlanCall.twoRegions : List PlanCall :=
  [.region "upper" 2, .table "bytes" 4, .region "lower" 1]

/-- Two calls on the upper region, the second of them refused, around a copy into the lower one. -/
theorem Layouter.regions_interleave_twoRegions :
    PlanCall.height PlanCall.twoRegions ≤ 2 ^ 63 ∧ (∀ rows ∈ PlanCall.tables PlanCall.twoRegions, rows ≤ 2 ^ 63) ∧
      let sys : System := (∅ : System).addColumn .advice |>.2.enableEquality ⟨.advice, 0⟩
      let first : RegionCall := .assignAdvice ⟨.advice, 0⟩ 1 (.ofNat 5)
      let second : RegionCall := .enable ⟨.fixed, 0⟩ 2
      let copied : RegionCall := .copyAdvice ⟨⟨⟨.advice, 0⟩, 1⟩, .ofNat 5⟩ ⟨.advice, 0⟩ 0
      ∃ numbers l, (Synthesis.plan sys PlanCall.twoRegions).Ends ∅ numbers l ∧ numbers.reduceOption = [0, 1] ∧
        l.Houses sys PlanCall.twoRegions ∧ ∃ r r', l.region 0 = .ok r ∧ l.region 1 = .ok r' ∧ ∀ w,
          let opened := OpenRegions.pair r r' (l.withWitness w)
          (opened.callAll sys [(.left, first), (.right, copied), (.left, second)]).2 =
            (opened.callAll sys [(.left, first), (.left, second), (.right, copied)]).2 := by
  have hheight : PlanCall.height PlanCall.twoRegions ≤ 2 ^ 63 := by decide
  have htables : ∀ rows ∈ PlanCall.tables PlanCall.twoRegions, rows ≤ 2 ^ 63 := by decide
  refine ⟨hheight, htables, ?_⟩
  intro sys first second copied
  obtain ⟨numbers, l, hends, hnumbers, hhouses, hfill⟩ := Layouter.regions_interleave sys hheight htables
  obtain ⟨start, hr, -⟩ := hhouses.regions 0 "upper" 2 rfl
  obtain ⟨start', hr', -⟩ := hhouses.regions 1 "lower" 1 rfl
  refine ⟨numbers, l, hends, hnumbers, hhouses, _, _, hr, hr', fun w => ?_⟩
  have hmixed : Interleaving [first, second] [copied] [(.left, first), (.right, copied), (.left, second)] :=
    .left (.right (.left .nil))
  obtain ⟨horder, -⟩ := hfill 0 1 _ _ Nat.zero_ne_one hr hr' w _ _ _ hmixed
  exact (horder _ List.mem_cons_self).1

end ScriptCircuit
