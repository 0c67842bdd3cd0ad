import Mathlib
import ScriptCircuit.Proofs.Plonk.Calls

/-!
# The phases of a layouter

A layouter is planned until its matrix is allocated, and filled until its witness is taken. Whatever calls it takes, failing
ones included, its phase is the one that the last of its allocations and takings which ended well has led to; calls that belong
to the other phase are refused and change nothing. Taking the witness is no end: it leads back to planning, with the old plan.
-/

namespace ScriptCircuit

open MatrixAux

/-- Changes the witness in place. -/
def Synthesis.change (f : Witness → Witness) : Synthesis Unit :=
  fun l => return ((), l.withWitness (f (← l.witness)))

namespace Layouter

/-- What a layouter is ready for. -/
inductive Phase where
  /-- regions and tables are planned, and the matrix is allocated -/
  | planning
  /-- regions and tables are handed out and filled, and the witness is taken -/
  | filling
deriving DecidableEq

/-- A call on a layouter. -/
inductive Call where
  | planRegion (name : String) (height : Nat)
  | planTable (name : String) (rows : Nat)
  | allocate
  | region (number : Nat)
  | table (name : String) (cells : List (Column × Nat × Felt))
  /-- hands out the witness, which is then changed in place -/
  | witness (f : Witness → Witness)
  | commit (r : Region)
  | constrainEqual (left right : Cell)
  | constrainInstance (cell : Cell) (column : Column) (row : Nat)
  | take

/-- The phase a call belongs to. -/
def Call.phase : Call → Phase
  | planRegion .. | planTable .. | allocate => .planning
  | region _ | table .. | witness _ | commit _ | constrainEqual .. | constrainInstance .. | take => .filling

/-- The call that leads out of a phase when it ends well. -/
def Phase.exit : Phase → Call
  | planning => .allocate
  | filling => .take

/-- The other phase. -/
def Phase.next : Phase → Phase
  | planning => .filling
  | filling => .planning

/-- The phase of a layouter. -/
def phase (l : Layouter) : Phase :=
  if l.allocated then .filling else .planning

/-- Work on a layouter: whether it ends well, and the layouter behind it, which work that fails leaves as it was. -/
def settle {α : Type} (l : Layouter) (work : Synthesis α) : Except Error Unit × Layouter :=
  match work l with
  | .ok (_, l') => (.ok (), l')
  | .error e => (.error e, l)

/-- What a call comes to, and the layouter behind it. A table that fails keeps the cells that were written before. -/
def answer (l : Layouter) (sys : System) : Call → Except Error Unit × Layouter
  | .planRegion name height => l.settle (Synthesis.planRegion name height)
  | .planTable name rows => l.settle (Synthesis.planTable name rows)
  | .allocate => l.settle (Synthesis.allocate sys)
  | .region number => l.settle (Synthesis.region number)
  | .table name cells => l.fillTable name cells
  | .witness f => l.settle (Synthesis.change f)
  | .commit r => l.settle (Synthesis.commit sys r)
  | .constrainEqual left right => l.settle (Synthesis.constrainEqual sys left right)
  | .constrainInstance cell column row => l.settle (Synthesis.constrainInstance sys cell column row)
  | .take => l.settle Synthesis.take

/-- A call ends well. -/
def EndsWell (l : Layouter) (sys : System) (call : Call) : Prop :=
  (l.answer sys call).1 = .ok ()

/-- A call is refused: it fails and changes nothing. The failure is one of the phase, unless the number of a region or the kind
of a column is refused first. -/
def Refuses (l : Layouter) (sys : System) (call : Call) : Prop :=
  ∃ e, l.answer sys call = (.error e, l) ∧ (e.category = .phase ∨ (∃ number, call = .region number ∧ e = .unknownRegion number) ∨
    ∃ cell column row, call = .constrainInstance cell column row ∧ e = .notInstance column)

/-- The layouter behind calls, each with the system as it is then. -/
def after (l : Layouter) (calls : List (System × Call)) : Layouter :=
  calls.foldl (fun l (sys, call) => (l.answer sys call).2) l

/-- One of the calls is this one, and ends well. -/
def Passes (l : Layouter) (calls : List (System × Call)) (call : Call) : Prop :=
  ∃ before sys rest, calls = before ++ (sys, call) :: rest ∧ (l.after before).EndsWell sys call

/-- One of the calls is `first` and ends well, and none behind it is `next` and ends well. -/
def Between (l : Layouter) (calls : List (System × Call)) (first next : Call) : Prop :=
  ∃ before sys rest, calls = before ++ (sys, first) :: rest ∧ (l.after before).EndsWell sys first ∧
    ¬((l.after before).answer sys first).2.Passes rest next

/-! ## One call -/

variable {l : Layouter} {sys : System}

/-- Work that ends well leaves its layouter. -/
theorem settle_of_ends {α : Type} {work : Synthesis α} {a : α} {l' : Layouter} (h : work.Ends l a l') :
    l.settle work = (.ok (), l') := by
  have hrun : work l = .ok (a, l') := h
  rw [settle, hrun]

/-- Work that fails leaves the layouter as it was. -/
theorem settle_of_error {α : Type} {work : Synthesis α} {e : Error} (h : work l = .error e) :
    l.settle work = (.error e, l) := by
  rw [settle, h]

/-- A layouter plans exactly when it carries no witness. -/
theorem phase_eq_planning : l.phase = .planning ↔ l.witness? = none := by
  rw [phase, allocated]
  cases l.witness? with
  | none => exact iff_of_true rfl rfl
  | some w => exact iff_of_false nofun nofun

/-- A layouter that is being filled carries a witness. -/
theorem exists_withWitness (h : l.phase = .filling) : ∃ w, l = l.withWitness w := by
  cases hw : l.witness? with
  | none => cases h.symm.trans (phase_eq_planning.mpr hw)
  | some w => exact ⟨w, by rw [withWitness, ← hw]⟩

/-- A call of the phase before allocation ends well in it. -/
theorem endsWell_of_planning {call : Call} (h : l.phase = .planning) (hcall : call.phase = .planning) :
    l.EndsWell sys call ∧ (call ≠ .allocate → (l.answer sys call).2.phase = .planning) := by
  have hnone := phase_eq_planning.mp h
  cases call with
  | planRegion name height =>
    have hanswer := settle_of_ends (Synthesis.ends_planRegion.mpr ⟨hnone, rfl, rfl⟩ :
      (Synthesis.planRegion name height).Ends l _ _)
    exact ⟨congrArg Prod.fst hanswer, fun _ => (congrArg (·.2.phase) hanswer).trans h⟩
  | planTable name rows =>
    have hanswer := settle_of_ends (Synthesis.ends_planTable.mpr ⟨hnone, rfl⟩ :
      (Synthesis.planTable name rows).Ends l () _)
    exact ⟨congrArg Prod.fst hanswer, fun _ => (congrArg (·.2.phase) hanswer).trans h⟩
  | allocate =>
    have hanswer := settle_of_ends (Synthesis.ends_allocate.mpr ⟨hnone, rfl⟩ : (Synthesis.allocate sys).Ends l () _)
    exact ⟨congrArg Prod.fst hanswer, fun hne => absurd rfl hne⟩
  | region | table | witness | commit | constrainEqual | constrainInstance | take => cases hcall

/-- A call that needs the witness is refused before allocation. -/
theorem refuses_of_planning {call : Call} (h : l.phase = .planning) (hcall : call.phase = .filling) :
    l.Refuses sys call := by
  have hnone := phase_eq_planning.mp h
  have hwitness := Synthesis.witness_eq_error hnone
  have hcopies : ∀ copies, l.addCopies sys copies = .error .notAllocated := by
    intro copies
    rw [addCopies, hwitness]
    rfl
  cases call with
  | region number =>
    cases hregion : l.regions[number]? with
    | none =>
      refine ⟨.unknownRegion number, settle_of_error ?_, .inr (.inl ⟨number, rfl, rfl⟩)⟩
      rw [Synthesis.region, region, hregion]
      rfl
    | some planned =>
      refine ⟨.notAllocated, settle_of_error ?_, .inl rfl⟩
      rw [Synthesis.region, region, hregion, hwitness]
      rfl
  | table name cells =>
    refine ⟨.notAllocated, ?_, .inl rfl⟩
    obtain ⟨regions, nextRow, tableRows, _⟩ := l
    cases hnone
    rfl
  | witness f =>
    refine ⟨.notAllocated, settle_of_error ?_, .inl rfl⟩
    rw [Synthesis.change, hwitness]
    rfl
  | commit r =>
    refine ⟨.notAllocated, settle_of_error ?_, .inl rfl⟩
    rw [Synthesis.commit, commit, hcopies]
    rfl
  | constrainEqual left right =>
    refine ⟨.notAllocated, settle_of_error ?_, .inl rfl⟩
    rw [Synthesis.constrainEqual, constrainEqual, hcopies]
    rfl
  | constrainInstance cell column row =>
    by_cases hkind : column.kind ≠ .publicInput
    · refine ⟨.notInstance column, settle_of_error ?_, .inr (.inr ⟨cell, column, row, rfl, rfl⟩)⟩
      rw [Synthesis.constrainInstance, constrainInstance, if_pos hkind]
      rfl
    · refine ⟨.notAllocated, settle_of_error ?_, .inl rfl⟩
      rw [Synthesis.constrainInstance, constrainInstance, if_neg hkind, constrainEqual, hcopies]
      rfl
  | take =>
    refine ⟨.notAllocated, settle_of_error ?_, .inl rfl⟩
    rw [Synthesis.take, take, hwitness]
    rfl
  | planRegion | planTable | allocate => cases hcall

/-- A call that plans or allocates is refused once there is a matrix. -/
theorem refuses_of_filling {call : Call} (h : l.phase = .filling) (hcall : call.phase = .planning) : l.Refuses sys call := by
  obtain ⟨w, hw⟩ := exists_withWitness h
  have hallocated : l.allocated = true := by rw [hw]; rfl
  cases call with
  | planRegion name height =>
    refine ⟨.regionAfterAllocation name, settle_of_error ?_, .inl rfl⟩
    rw [Synthesis.planRegion, planRegion, if_pos hallocated]
    rfl
  | planTable name rows =>
    refine ⟨.tableAfterAllocation name, settle_of_error ?_, .inl rfl⟩
    rw [Synthesis.planTable, planTable, if_pos hallocated]
    rfl
  | allocate =>
    refine ⟨.alreadyAllocated, settle_of_error ?_, .inl rfl⟩
    rw [Synthesis.allocate, allocate, if_pos hallocated]
    rfl
  | region | table | witness | commit | constrainEqual | constrainInstance | take => cases hcall

/-- Work that keeps a witness when it ends well always keeps one. -/
theorem phase_settle {α : Type} {work : Synthesis α} (h : l.phase = .filling)
    (hkeeps : ∀ a l', work.Ends l a l' → l'.phase = .filling) : (l.settle work).2.phase = .filling := by
  cases hrun : work l with
  | ok out => rw [settle_of_ends hrun, hkeeps out.1 out.2 hrun]
  | error e => rw [settle_of_error hrun, h]

/-- Filling goes on until the witness is taken. -/
theorem phase_of_filling {call : Call} (h : l.phase = .filling) (hcall : call ≠ .take) :
    (l.answer sys call).2.phase = .filling := by
  obtain ⟨⟨m, copies⟩, hw⟩ := exists_withWitness h
  have hrefused : l.Refuses sys call → (l.answer sys call).2.phase = .filling := by
    rintro ⟨e, hanswer, -⟩
    rw [hanswer, h]
  cases call with
  | planRegion | planTable | allocate => exact hrefused (refuses_of_filling h rfl)
  | region number =>
    refine phase_settle h fun a l' hends => ?_
    rw [hw] at hends
    obtain ⟨p, -, -, rfl⟩ := Synthesis.ends_region.mp hends
    rfl
  | table name cells =>
    rw [hw]
    rfl
  | witness f =>
    rw [hw]
    rfl
  | commit r =>
    refine phase_settle h fun a l' hends => ?_
    rw [hw] at hends
    obtain ⟨-, rfl⟩ := Synthesis.ends_commit.mp hends
    rfl
  | constrainEqual left right =>
    refine phase_settle h fun a l' hends => ?_
    rw [hw] at hends
    obtain ⟨-, rfl⟩ := Synthesis.ends_constrainEqual.mp hends
    rfl
  | constrainInstance cell column row =>
    refine phase_settle h fun a l' hends => ?_
    rw [hw] at hends
    obtain ⟨-, rfl⟩ := Synthesis.ends_constrainEqual.mp (Synthesis.ends_constrainEqual_of_instance hends)
    rfl
  | take => exact absurd rfl hcall

/-- Handing out and taking the witness end well when there is one. -/
theorem endsWell_of_filling {call : Call} (h : l.phase = .filling) (hcall : call = .take ∨ ∃ f, call = .witness f) :
    l.EndsWell sys call := by
  obtain ⟨w, hw⟩ := exists_withWitness h
  rcases hcall with rfl | ⟨f, rfl⟩
  · rw [hw]
    rfl
  · rw [hw]
    rfl

/-- A call that does not lead out of the phase leaves it. -/
theorem phase_answer {call : Call} (h : call = l.phase.exit → ¬l.EndsWell sys call) :
    (l.answer sys call).2.phase = l.phase := by
  cases hphase : l.phase with
  | planning =>
    rw [hphase] at h
    cases hcall : call.phase with
    | planning =>
      have hends : l.EndsWell sys call := (endsWell_of_planning hphase hcall).1
      exact (endsWell_of_planning hphase hcall).2 fun hexit => h hexit hends
    | filling =>
      obtain ⟨e, hanswer, -⟩ : l.Refuses sys call := refuses_of_planning hphase hcall
      rw [hanswer, hphase]
  | filling =>
    rw [hphase] at h
    exact phase_of_filling hphase fun hexit => h hexit (endsWell_of_filling hphase (.inl hexit))

/-- A call that ends well comes in its phase. -/
theorem phase_of_endsWell {call : Call} (h : l.EndsWell sys call) : l.phase = call.phase := by
  have hnot : ¬l.Refuses sys call := by
    rintro ⟨e, hanswer, -⟩
    cases (congrArg Prod.fst hanswer).symm.trans h
  cases hphase : l.phase with
  | planning =>
    cases hcall : call.phase with
    | planning => rfl
    | filling => exact absurd (refuses_of_planning hphase hcall) hnot
  | filling =>
    cases hcall : call.phase with
    | planning => exact absurd (refuses_of_filling hphase hcall) hnot
    | filling => rfl

/-- A call that leads out of a phase leads to the other one. -/
theorem phase_of_exit {p : Phase} (h : l.EndsWell sys p.exit) : (l.answer sys p.exit).2.phase = p.next := by
  have hphase := phase_of_endsWell h
  cases p with
  | planning =>
    have hnone := phase_eq_planning.mp hphase
    exact congrArg (·.2.phase) (settle_of_ends (Synthesis.ends_allocate.mpr ⟨hnone, rfl⟩ :
      (Synthesis.allocate sys).Ends l () _))
  | filling =>
    obtain ⟨w, hw⟩ := exists_withWitness hphase
    rw [hw]
    rfl

/-! ## Many calls -/

/-- A call passes among calls when it is the first one or among the others. -/
theorem passes_cons {call call' : Call} {calls : List (System × Call)} :
    l.Passes ((sys, call) :: calls) call' ↔ (call = call' ∧ l.EndsWell sys call) ∨ (l.answer sys call).2.Passes calls call' := by
  constructor
  · rintro ⟨_ | ⟨head, before⟩, sys', rest, hcalls, hends⟩
    · cases hcalls
      exact .inl ⟨rfl, hends⟩
    · cases hcalls
      exact .inr ⟨before, sys', rest, rfl, hends⟩
  · rintro (⟨rfl, hends⟩ | ⟨before, sys', rest, rfl, hends⟩)
    · exact ⟨[], sys, calls, rfl, hends⟩
    · exact ⟨(sys, call) :: before, sys', rest, rfl, hends⟩

/-- A phase lasts until a call leads out of it. -/
theorem phase_after {calls : List (System × Call)} (h : ¬l.Passes calls l.phase.exit) : (l.after calls).phase = l.phase := by
  induction calls generalizing l with
  | nil => rfl
  | cons head calls ih =>
    obtain ⟨sys, call⟩ := head
    rw [passes_cons, not_or, not_and] at h
    -- The first call does not lead out of the phase, so the rest starts in the same one.
    have hphase : (l.answer sys call).2.phase = l.phase := phase_answer h.1
    rw [← hphase]
    exact ih (hphase ▸ h.2)

/-- Behind a call that leads into a phase the phase lasts until a call leads out of it. -/
theorem phase_of_between (p : Phase) {calls : List (System × Call)} (h : l.Between calls p.exit p.next.exit) :
    (l.after calls).phase = p.next := by
  obtain ⟨before, sys, rest, rfl, hends, hrest⟩ := h
  have hphase := phase_of_exit hends
  rw [← hphase] at hrest ⊢
  have hafter : l.after (before ++ (sys, p.exit) :: rest) = ((l.after before).answer sys p.exit).2.after rest :=
    List.foldl_append ..
  rw [hafter, phase_after hrest]

/-- Whatever calls a layouter has taken, its phase decides the next one. Before an allocation has ended well, and again behind
a taking of the witness until the next allocation, plans end well, an allocation of at most 2 ^ 63 rows ends well, and all that
needs a witness is refused; between allocation and taking, plans and a second allocation are refused, and the witness is handed
out and taken. -/
theorem phases_alternate (calls : List (System × Call)) (sys : System) (call : Call) :
    let l := (∅ : Layouter).after calls
    (¬(∅ : Layouter).Passes calls .allocate ∨ (∅ : Layouter).Between calls .take .allocate →
        (call.phase = .filling → l.Refuses sys call) ∧
          (call.phase = .planning → (call = .allocate → max l.nextRow l.tableRows ≤ 2 ^ 63) → l.EndsWell sys call)) ∧
      ((∅ : Layouter).Between calls .allocate .take →
        (call.phase = .planning → l.Refuses sys call) ∧ (call = .take ∨ (∃ f, call = .witness f) → l.EndsWell sys call)) := by
  intro l
  constructor
  · intro h
    have hphase : l.phase = .planning := h.elim phase_after (phase_of_between .filling)
    exact ⟨refuses_of_planning hphase, fun hcall _ => (endsWell_of_planning hphase hcall).1⟩
  · intro h
    have hphase : l.phase = .filling := phase_of_between .planning h
    exact ⟨refuses_of_filling hphase, endsWell_of_filling hphase⟩

/-- A region is planned, the matrix is allocated and the witness is taken. -/
def takingCalls : List (System × Call) :=
  [(∅, .planRegion "r" 1), (∅, .allocate), (∅, .take)]

/-- Behind the taking a region is refused, and the matrix is allocated once more. -/
theorem phases_alternate_taken : (∅ : Layouter).Between takingCalls .take .allocate ∧
    ((∅ : Layouter).after takingCalls).Refuses ∅ (.region 0) ∧ ((∅ : Layouter).after takingCalls).EndsWell ∅ .allocate := by
  have hbetween : (∅ : Layouter).Between takingCalls .take .allocate := by
    refine ⟨[(∅, .planRegion "r" 1), (∅, .allocate)], ∅, [], rfl, rfl, ?_⟩
    rintro ⟨before, sys, rest, hcalls, -⟩
    exact absurd hcalls (by simp)
  have hrows : max ((∅ : Layouter).after takingCalls).nextRow ((∅ : Layouter).after takingCalls).tableRows ≤ 2 ^ 63 := by
    decide
  exact ⟨hbetween, ((phases_alternate takingCalls ∅ (.region 0)).1 (.inr hbetween)).1 rfl,
    ((phases_alternate takingCalls ∅ .allocate).1 (.inr hbetween)).2 rfl fun _ => hrows⟩

/-- Taking the witness does not close a layouter: a call that plans still ends well. -/
theorem closed_by_taking_false : ¬∀ (calls : List (System × Call)) (sys : System) (call : Call),
    (∅ : Layouter).Passes calls .take → ∃ e, (((∅ : Layouter).after calls).answer sys call).1 = .error e := by
  intro hclosed
  have htaken : (∅ : Layouter).Passes takingCalls .take :=
    ⟨[(∅, .planRegion "r" 1), (∅, .allocate)], ∅, [], rfl, rfl⟩
  obtain ⟨e, he⟩ := hclosed takingCalls ∅ (.planRegion "r" 1) htaken
  have hplans : (((∅ : Layouter).after takingCalls).answer ∅ (.planRegion "r" 1)).1 = .ok () := rfl
  cases hplans.symm.trans he

end Layouter

end ScriptCircuit
