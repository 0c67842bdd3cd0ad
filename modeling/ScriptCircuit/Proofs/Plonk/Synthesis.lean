import Mathlib
import ScriptCircuit.Plonk.Layouter
import ScriptCircuit.Proofs.Plonk.Fill

/-!
# What synthesis does

One equation for every step of a synthesis: when it ends well, with which result, and what it leaves. Between allocation
and the end the layouter carries a witness; the steps that write or link change nothing but that witness.
-/

namespace ScriptCircuit

open MatrixAux

/-- The layouter with a witness at work. -/
def Layouter.withWitness (l : Layouter) (w : Witness) : Layouter :=
  { l with witness? := some w }

/-- The layouter behind one more region. -/
def Layouter.behind (l : Layouter) (name : String) (height : Nat) : Layouter :=
  { l with
    regions := l.regions ++ [⟨name, l.nextRow, height⟩]
    nextRow := (l.nextRow + height) % UInt64.size }

/-- A power of two above a number is less than twice that number. -/
theorem Layouter.powerOfTwoFrom_bounds (n : Nat) : n ≤ powerOfTwoFrom n ∧ powerOfTwoFrom n ≤ max 1 (2 * n) := by
  unfold powerOfTwoFrom
  split
  · omega
  · rename_i h
    rw [Nat.one_shiftLeft, Nat.pow_succ]
    have hlow := Nat.log2_self_le (n := n - 1) (by omega)
    have hhigh := Nat.lt_log2_self (n := n - 1)
    rw [Nat.pow_succ] at hhigh
    omega

/-- The matrix holds all regions and tables and is less than twice as high as they need. -/
theorem Layouter.rows_bounds (l : Layouter) :
    max l.nextRow l.tableRows ≤ l.rows ∧ l.rows ≤ max 1 (2 * max l.nextRow l.tableRows) :=
  powerOfTwoFrom_bounds _

/-- The layouter with one more table. -/
def Layouter.withTable (l : Layouter) (rows : Nat) : Layouter :=
  { l with tableRows := max l.tableRows rows }

/-- Copy constraints are added when all their columns are enabled. -/
theorem Witness.addCopies_eq_ok (w w' : Witness) (sys : System) (copies : List Copy) :
    w.addCopies sys copies = .ok w' ↔
      (∀ copy ∈ copies, sys.Links copy.left.column copy.right.column) ∧ w' = { w with copies := w.copies ++ copies } := by
  have hforM : copies.forM sys.checkCopy = .ok () ↔
      ∀ copy ∈ copies, sys.Links copy.left.column copy.right.column := by
    induction copies with
    | nil => simp [List.forM, pure, Except.pure]
    | cons copy copies ih =>
      change (sys.checkCopy copy >>= fun _ => copies.forM sys.checkCopy) = .ok () ↔ _
      rw [except_bind_eq_ok, List.forall_mem_cons, ← ih, ← System.checkCopy_eq_ok]
      exact ⟨fun ⟨_, h, h'⟩ => ⟨h, h'⟩, fun ⟨h, h'⟩ => ⟨(), h, h'⟩⟩
  rw [addCopies, except_bind_eq_ok, ← hforM]
  constructor
  · rintro ⟨⟨⟩, h, h'⟩
    cases h'
    exact ⟨h, rfl⟩
  · rintro ⟨h, rfl⟩
    exact ⟨(), h, rfl⟩

namespace Synthesis

variable {α β : Type}

/-- The work ends well, with a result and a layouter. -/
def Ends (work : Synthesis α) (l : Layouter) (a : α) (l' : Layouter) : Prop :=
  work.run l = .ok (a, l')

/-- Doing nothing ends well, with the layouter as it was. -/
theorem ends_pure {a b : α} {l l' : Layouter} : (pure a : Synthesis α).Ends l b l' ↔ b = a ∧ l' = l := by
  change (Except.ok (a, l) : Except Error (α × Layouter)) = .ok (b, l') ↔ _
  rw [Except.ok.injEq, Prod.mk.injEq, eq_comm (a := a), eq_comm (a := l)]

/-- A sequence ends well when the first work does and the second does from there. -/
theorem ends_bind {work : Synthesis α} {f : α → Synthesis β} {l l' : Layouter} {b : β} :
    (work >>= f).Ends l b l' ↔ ∃ a m, work.Ends l a m ∧ (f a).Ends m b l' := by
  unfold Ends
  rw [StateT.run_bind, except_bind_eq_ok]
  exact ⟨fun ⟨⟨a, m⟩, h, h'⟩ => ⟨a, m, h, h'⟩, fun ⟨a, m, h, h'⟩ => ⟨⟨a, m⟩, h, h'⟩⟩

/-- Synthesis passes the layouter. -/
theorem passesState : PassesState Synthesis.Ends :=
  ⟨ends_pure, ends_bind⟩

/-- Work that ends well in one way for each of some cases is passed in these cases. -/
theorem ends_bind_of_exists {ι : Type} {work : Synthesis α} {f : α → Synthesis β} {l l' : Layouter} {a : ι → α}
    {m : ι → Layouter} {b : β} {P : ι → Prop} (h : ∀ a' m', work.Ends l a' m' ↔ ∃ i, P i ∧ a' = a i ∧ m' = m i) :
    (work >>= f).Ends l b l' ↔ ∃ i, P i ∧ (f (a i)).Ends (m i) b l' := by
  rw [ends_bind]
  constructor
  · rintro ⟨a', m', hwork, hrest⟩
    obtain ⟨i, hP, rfl, rfl⟩ := (h a' m').mp hwork
    exact ⟨i, hP, hrest⟩
  · rintro ⟨i, hP, hrest⟩
    exact ⟨a i, m i, (h _ _).mpr ⟨i, hP, rfl, rfl⟩, hrest⟩

/-- Work that ends well in one way only, when a condition holds, is passed under this condition. -/
theorem ends_bind_of_and {work : Synthesis α} {f : α → Synthesis β} {l m l' : Layouter} {a : α} {b : β} {P : Prop}
    (h : ∀ a' m', work.Ends l a' m' ↔ P ∧ a' = a ∧ m' = m) : (work >>= f).Ends l b l' ↔ P ∧ (f a).Ends m b l' :=
  (ends_bind_of_exists fun a' m' => (h a' m').trans (exists_const Unit).symm).trans (exists_const Unit)

/-- Work that ends well in one way only is passed. -/
theorem ends_bind_of {work : Synthesis α} {f : α → Synthesis β} {l m l' : Layouter} {a : α} {b : β}
    (h : ∀ a' m', work.Ends l a' m' ↔ a' = a ∧ m' = m) : (work >>= f).Ends l b l' ↔ (f a).Ends m b l' :=
  (ends_bind_of_and fun a' m' => (h a' m').trans (and_iff_right trivial).symm).trans (and_iff_right trivial)

/-- Work without a result that ends well in one way only is passed. -/
theorem ends_bind_of_unit {work : Synthesis Unit} {f : Unit → Synthesis β} {l m l' : Layouter} {b : β}
    (h : ∀ u m', work.Ends l u m' ↔ m' = m) : (work >>= f).Ends l b l' ↔ (f ()).Ends m b l' :=
  ends_bind_of fun u m' => (h u m').trans (and_iff_right rfl).symm

/-- Work whose result is dropped ends well when the work does. -/
theorem ends_discard {work : Synthesis α} {l l' : Layouter} {u : Unit} :
    (discard work : Synthesis Unit).Ends l u l' ↔ ∃ a, work.Ends l a l' := by
  have hbind : (discard work : Synthesis Unit) = work >>= fun _ => pure () := by
    funext m
    change (do let (a, m) ← work m; pure ((), m) : Except Error (Unit × Layouter)) = _
    rfl
  simp only [hbind, passesState.ends_map, and_true]

/-- A computation on its own, as work. -/
theorem ends_lift {x : Except Error α} {a : α} {l l' : Layouter} :
    (liftM x : Synthesis α).Ends l a l' ↔ x = .ok a ∧ l' = l := by
  change (x >>= fun a => pure (a, l)) = .ok (a, l') ↔ _
  rw [except_bind_eq_ok]
  constructor
  · rintro ⟨b, h, hpure⟩
    cases hpure
    exact ⟨h, rfl⟩
  · rintro ⟨h, rfl⟩
    exact ⟨a, h, rfl⟩

variable {l l' : Layouter} {sys : System} {u : Unit}

/-- Work that only changes the layouter. -/
theorem update_eq_ok {x : Except Error Layouter} :
    (x >>= fun l => pure ((), l) : Except Error (Unit × Layouter)) = .ok (u, l') ↔ x = .ok l' := by
  cases x with
  | error e => exact iff_of_false (by nofun) (by nofun)
  | ok l =>
    simp only [bind, Except.bind, pure, Except.pure, Except.ok.injEq, Prod.mk.injEq, true_and]

/-! ## Planning -/

/-- What is refused once the matrix is there ends well exactly before. -/
theorem unallocated_eq_ok {e : Error} {x y : α} :
    (if l.allocated then throw e else pure x : Except Error α) = .ok y ↔ l.witness? = none ∧ y = x := by
  unfold Layouter.allocated
  cases l.witness? with
  | some w => exact iff_of_false nofun fun h => nomatch h.1
  | none => exact ⟨fun h => ⟨rfl, (Except.ok.inj h).symm⟩, fun ⟨_, h⟩ => h ▸ rfl⟩

/-- A region is planned exactly before allocation, behind the regions there are. -/
theorem ends_planRegion {name : String} {height index : Nat} :
    (planRegion name height).Ends l index l' ↔
      l.witness? = none ∧ index = l.regions.length ∧ l' = l.behind name height :=
  unallocated_eq_ok.trans (and_congr_right fun _ => Prod.mk_inj)

/-- A table is planned exactly before allocation. -/
theorem ends_planTable {name : String} {rows : Nat} :
    (planTable name rows).Ends l u l' ↔ l.witness? = none ∧ l' = l.withTable rows :=
  update_eq_ok.trans unallocated_eq_ok

/-- The matrix is allocated exactly once, full of zeros. -/
theorem ends_allocate :
    (allocate sys).Ends l u l' ↔ l.witness? = none ∧ l' = l.withWitness ⟨.zero sys l.rows, []⟩ :=
  update_eq_ok.trans unallocated_eq_ok

/-- The rows and the layouter behind many regions. -/
def behindAll (l : Layouter) (before : List (String × Nat)) : Layouter :=
  before.foldl (fun l (name, height) => l.behind name height) l

/-- Planned regions leave the witness. -/
theorem witness_behindAll (l : Layouter) (before : List (String × Nat)) : (behindAll l before).witness? = l.witness? := by
  induction before generalizing l with
  | nil => rfl
  | cons planned before ih => exact ih _

/-- Planned regions leave the height of the tables. -/
theorem tableRows_behindAll (l : Layouter) (before : List (String × Nat)) :
    (behindAll l before).tableRows = l.tableRows := by
  induction before generalizing l with
  | nil => rfl
  | cons planned before ih => exact ih _

/-- A list of regions is planned exactly before allocation, unless it is empty. -/
theorem ends_planRegions {before : List (String × Nat)} :
    (before.forM fun (name, height) => discard (planRegion name height) : Synthesis Unit).Ends l u l' ↔
      (before = [] ∨ l.witness? = none) ∧ l' = behindAll l before := by
  induction before generalizing l with
  | nil =>
    change (pure () : Synthesis Unit).Ends l u l' ↔ _
    simp [ends_pure, behindAll]
  | cons planned before ih =>
    change (discard (planRegion planned.1 planned.2) >>= fun _ => before.forM _ : Synthesis Unit).Ends l u l' ↔ _
    simp only [ends_bind, ends_discard, ends_planRegion, ih]
    constructor
    · rintro ⟨_, _, ⟨_, hw, -, rfl⟩, -, rfl⟩
      exact ⟨.inr hw, rfl⟩
    · rintro ⟨hw | hw, rfl⟩
      · cases hw
      · exact ⟨(), _, ⟨_, hw, rfl, rfl⟩, .inr hw, rfl⟩

/-! ## Writing and linking -/

variable {m : Matrix} {copies : List Copy}

/-- The cells of a table lie below the planned height and in the matrix. -/
theorem writeCells_eq_ok (name : String) (planned : Nat) (cells : List (Column × Nat × Felt)) (m m' : Matrix) :
    Layouter.fillTable.writeCells name planned cells m = (.ok (), m') ↔
      (∀ x ∈ cells, x.2.1 < planned ∧ x.2.1 < m.rows ∧ m.HasColumn x.1) ∧ m' = m.writeAll cells := by
  induction cells generalizing m with
  | nil =>
    simp only [Layouter.fillTable.writeCells, pure, Except.pure, Prod.mk.injEq, true_and, List.not_mem_nil,
      false_implies, implies_true, Matrix.writeAll_nil]
    exact eq_comm
  | cons cell cells ih =>
    obtain ⟨c, row, x⟩ := cell
    rw [Layouter.fillTable.writeCells, List.forall_mem_cons, Matrix.writeAll_cons]
    by_cases hrow : planned ≤ row
    · simp [hrow, throw, throwThe, MonadExceptOf.throw, Nat.not_lt.mpr hrow]
    · rw [if_neg hrow]
      have hcheck := m.checkCell_eq_ok c row
      cases h : m.checkCell c row with
      | error e =>
        rw [h] at hcheck
        have hno : ¬(row < m.rows ∧ m.HasColumn c) := fun hc => nomatch hcheck.mpr hc
        constructor
        · nofun
        · rintro ⟨⟨⟨-, hc⟩, -⟩, -⟩
          exact absurd hc hno
      | ok v =>
        rw [h] at hcheck
        simp only [ih, Matrix.rows_write, Matrix.hasColumn_write, hcheck.mp rfl, Nat.not_le.mp hrow, true_and]

/-- A table is written exactly when its cells lie within its plan and within the matrix. -/
theorem ends_fillTable {name : String} {cells : List (Column × Nat × Felt)} :
    (fillTable name cells).Ends (l.withWitness ⟨m, copies⟩) u l' ↔
      (∀ x ∈ cells, x.2.1 < l.tableRows ∧ x.2.1 < m.rows ∧ m.HasColumn x.1) ∧
        l' = l.withWitness ⟨m.writeAll cells, copies⟩ := by
  have hw := writeCells_eq_ok name l.tableRows cells m
  change fillTable name cells (l.withWitness ⟨m, copies⟩) = _ ↔ _
  simp only [fillTable, Layouter.fillTable, Layouter.withWitness]
  generalize Layouter.fillTable.writeCells name l.tableRows cells m = x at hw ⊢
  obtain ⟨x, m'⟩ := x
  cases x with
  | error e =>
    refine iff_of_false (fun hends => ?_) fun hends => ?_
    · cases hends
    · cases (hw _).mpr ⟨hends.1, rfl⟩
  | ok v =>
    obtain ⟨h, hm⟩ := (hw m').mp rfl
    subst hm
    simp only [pure, Except.pure, Except.ok.injEq, Prod.mk.injEq, true_and, and_iff_right h]
    exact eq_comm

/-- A region is handed out exactly when it was planned, without copy constraints. -/
theorem ends_region {w : Witness} {index : Nat} {r : Region} :
    (region index).Ends (l.withWitness w) r l' ↔
      ∃ p, l.regions[index]? = some p ∧ r = ⟨p.name, p.start, p.height, []⟩ ∧ l' = l.withWitness w := by
  change region index (l.withWitness w) = _ ↔ _
  simp only [region, Layouter.region, Layouter.withWitness, Layouter.witness]
  cases l.regions[index]? with
  | none => simp [throw, throwThe, MonadExceptOf.throw]
  | some p =>
    simp only [pure, Except.pure, discard, Functor.discard, Functor.mapConst, Except.map, bind, Except.bind,
      Function.comp, Function.const, Except.ok.injEq, Prod.mk.injEq, Option.some.injEq, exists_eq_left']
    exact and_congr eq_comm eq_comm

/-- Work on a region ends well when it does on the region and the matrix, whose changes are kept. -/
theorem ends_fill {r : Region} {work : Fill α} {x : α × Region} :
    (fill r work).Ends (l.withWitness ⟨m, copies⟩) x l' ↔
      ∃ a s, work.Ends ⟨r, m⟩ a s ∧ x = (a, s.region) ∧ l' = l.withWitness ⟨s.matrix, copies⟩ := by
  change fill r work (l.withWitness ⟨m, copies⟩) = _ ↔ _
  simp only [fill, Layouter.fill, Layouter.withWitness, Fill.Ends]
  rcases work.run ⟨r, m⟩ with ⟨y, s⟩
  cases y with
  | error e =>
    constructor
    · intro h
      cases h
    · rintro ⟨_, _, h, -⟩
      cases h
  | ok a =>
    constructor
    · intro h
      cases h
      exact ⟨a, s, rfl, rfl, rfl⟩
    · rintro ⟨_, _, h, rfl, rfl⟩
      cases h
      rfl

/-- Work on a region whose effect is known, when its cells fit and its copies are enabled. -/
theorem ends_fill_does {r : Region} {work : Fill α} {cells : List (Column × Nat × Felt)}
    {links : List (Cell × Column × Nat)} {result : Nat → α} (h : work.Does sys cells links result)
    (hfits : ∀ x ∈ cells, Filling.Fits ⟨r, m⟩ x.1 x.2.1) (hlinks : ∀ x ∈ links, sys.Links x.1.column x.2.1)
    {x : α × Region} :
    (fill r work).Ends (l.withWitness ⟨m, copies⟩) x l' ↔
      x = (result r.start, { r with copies := r.copies ++ linked r.start links }) ∧
        l' = l.withWitness ⟨m.writeAll (placed r.start cells), copies⟩ := by
  rw [ends_fill]
  constructor
  · rintro ⟨a, s, hwork, rfl, rfl⟩
    obtain ⟨-, -, rfl, rfl⟩ := (h _ _ _).mp hwork
    exact ⟨rfl, rfl⟩
  · rintro ⟨rfl, rfl⟩
    exact ⟨_, _, (h _ _ _).mpr ⟨hfits, hlinks, rfl, rfl⟩, rfl, rfl⟩

/-- A layouter adds copy constraints exactly when all their columns are enabled. -/
theorem addCopies_withWitness_eq_ok {copies new : List Copy} :
    (l.withWitness ⟨m, copies⟩).addCopies sys new = .ok l' ↔
      (∀ copy ∈ new, sys.Links copy.left.column copy.right.column) ∧ l' = l.withWitness ⟨m, copies ++ new⟩ := by
  change (Witness.addCopies ⟨m, copies⟩ sys new >>= fun w => pure (l.withWitness w)) = .ok l' ↔ _
  rw [except_bind_eq_ok]
  constructor
  · rintro ⟨w, hadd, hpure⟩
    obtain ⟨hlinks, rfl⟩ := (Witness.addCopies_eq_ok ..).mp hadd
    cases hpure
    exact ⟨hlinks, rfl⟩
  · rintro ⟨hlinks, rfl⟩
    exact ⟨_, (Witness.addCopies_eq_ok ..).mpr ⟨hlinks, rfl⟩, rfl⟩

/-- A region is committed exactly when its copy constraints are enabled; the witness keeps them. -/
theorem ends_commit {r : Region} :
    (commit sys r).Ends (l.withWitness ⟨m, copies⟩) u l' ↔
      (∀ copy ∈ r.copies, sys.Links copy.left.column copy.right.column) ∧
        l' = l.withWitness ⟨m, copies ++ r.copies⟩ := by
  rw [← addCopies_withWitness_eq_ok]
  change commit sys r (l.withWitness ⟨m, copies⟩) = _ ↔ _
  simp only [commit, Layouter.commit]
  cases (l.withWitness ⟨m, copies⟩).addCopies sys r.copies with
  | error e => exact iff_of_false (by nofun) (by nofun)
  | ok l₁ =>
    constructor
    · rintro ⟨⟩
      rfl
    · rintro ⟨⟩
      rfl

/-- Two cells are tied together exactly when their columns are enabled. -/
theorem ends_constrainEqual {left right : Cell} :
    (constrainEqual sys left right).Ends (l.withWitness ⟨m, copies⟩) u l' ↔
      sys.Links left.column right.column ∧ l' = l.withWitness ⟨m, copies ++ [⟨left, right⟩]⟩ := by
  change (Layouter.addCopies _ sys [⟨left, right⟩] >>= fun l => pure ((), l)) = .ok (u, l') ↔ _
  rw [update_eq_ok, addCopies_withWitness_eq_ok, List.forall_mem_singleton]

/-- A cell is tied to a public value exactly when both columns are enabled. -/
theorem ends_constrainInstance {c : Cell} {column : Column} {row : Nat} (h : column.kind = .publicInput) :
    (constrainInstance sys c column row).Ends (l.withWitness ⟨m, copies⟩) u l' ↔
      sys.Links c.column column ∧ l' = l.withWitness ⟨m, copies ++ [⟨c, ⟨column, row⟩⟩]⟩ := by
  have hequal : (constrainEqual sys c ⟨column, row⟩).Ends (l.withWitness ⟨m, copies⟩) u l' ↔ _ := ends_constrainEqual
  rw [← hequal]
  change (Layouter.constrainInstance _ sys c column row >>= _) = _ ↔ (Layouter.constrainEqual _ sys c ⟨column, row⟩ >>= _) = _
  rw [Layouter.constrainInstance, if_neg (not_not_intro h)]

/-- The witness is taken once and forgotten. -/
theorem ends_take {w w' : Witness} :
    take.Ends (l.withWitness w) w' l' ↔ w' = w ∧ l' = { l with witness? := none } := by
  change Layouter.take (l.withWitness w) = _ ↔ _
  simp only [Layouter.take, Layouter.withWitness, Layouter.witness, pure, Except.pure, bind, Except.bind,
    Except.ok.injEq, Prod.mk.injEq]
  exact and_congr eq_comm eq_comm

/-! ## Steps in a chain

A step whose condition holds is passed: the chain goes on from what the step leaves.
-/

variable {β : Type} {b : β}

/-- A computation on its own is passed when it gives a value. -/
theorem ends_lift_bind {α : Type} {x : Except Error α} {f : α → Synthesis β} :
    (liftM x >>= f : Synthesis β).Ends l b l' ↔ ∃ a, x = .ok a ∧ (f a).Ends l b l' := by
  simp only [ends_bind, ends_lift]
  constructor
  · rintro ⟨a, _, ⟨ha, rfl⟩, hrest⟩
    exact ⟨a, ha, hrest⟩
  · rintro ⟨a, ha, hrest⟩
    exact ⟨a, l, ⟨ha, rfl⟩, hrest⟩

/-- Planning a region before allocation is passed. -/
theorem ends_planRegion_bind {name : String} {height : Nat} {f : Nat → Synthesis β} (h : l.witness? = none) :
    (planRegion name height >>= f).Ends l b l' ↔ (f l.regions.length).Ends (l.behind name height) b l' :=
  ends_bind_of fun _ _ => ends_planRegion.trans (and_iff_right h)

/-- Planning a table before allocation is passed. -/
theorem ends_planTable_bind {name : String} {rows : Nat} {f : Unit → Synthesis β} (h : l.witness? = none) :
    (planTable name rows >>= f).Ends l b l' ↔ (f ()).Ends (l.withTable rows) b l' :=
  ends_bind_of_unit fun _ _ => ends_planTable.trans (and_iff_right h)

/-- The allocation is passed. -/
theorem ends_allocate_bind {f : Unit → Synthesis β} (h : l.witness? = none) :
    (allocate sys >>= f).Ends l b l' ↔ (f ()).Ends (l.withWitness ⟨.zero sys l.rows, []⟩) b l' :=
  ends_bind_of_unit fun _ _ => ends_allocate.trans (and_iff_right h)

/-- Writing a table that fits is passed. -/
theorem ends_fillTable_bind {name : String} {cells : List (Column × Nat × Felt)} {f : Unit → Synthesis β}
    (h : ∀ x ∈ cells, x.2.1 < l.tableRows ∧ x.2.1 < m.rows ∧ m.HasColumn x.1) :
    (fillTable name cells >>= f).Ends (l.withWitness ⟨m, copies⟩) b l' ↔
      (f ()).Ends (l.withWitness ⟨m.writeAll cells, copies⟩) b l' :=
  ends_bind_of_unit fun _ _ => ends_fillTable.trans (and_iff_right h)

/-- Handing out a planned region is passed. -/
theorem ends_region_bind {w : Witness} {index start height : Nat} {name : String} {f : Region → Synthesis β}
    (h : l.regions[index]? = some ⟨name, start, height⟩) :
    (region index >>= f).Ends (l.withWitness w) b l' ↔ (f ⟨name, start, height, []⟩).Ends (l.withWitness w) b l' := by
  refine ends_bind_of fun _ _ => ?_
  rw [ends_region]
  simp only [h, Option.some.injEq, exists_eq_left']

/-- Committing a region with enabled copy constraints is passed. -/
theorem ends_commit_bind {r : Region} {f : Unit → Synthesis β}
    (h : ∀ copy ∈ r.copies, sys.Links copy.left.column copy.right.column) :
    (commit sys r >>= f).Ends (l.withWitness ⟨m, copies⟩) b l' ↔
      (f ()).Ends (l.withWitness ⟨m, copies ++ r.copies⟩) b l' :=
  ends_bind_of_unit fun _ _ => ends_commit.trans (and_iff_right h)

/-- Tying cells of enabled columns together is passed. -/
theorem ends_constrainEqual_bind {left right : Cell} {f : Unit → Synthesis β} (h : sys.Links left.column right.column) :
    (constrainEqual sys left right >>= f).Ends (l.withWitness ⟨m, copies⟩) b l' ↔
      (f ()).Ends (l.withWitness ⟨m, copies ++ [⟨left, right⟩]⟩) b l' :=
  ends_bind_of_unit fun _ _ => ends_constrainEqual.trans (and_iff_right h)

/-- Tying a cell to a public value is passed when the columns are enabled. -/
theorem ends_constrainInstance_bind {c : Cell} {column : Column} {row : Nat} {f : Unit → Synthesis β}
    (hkind : column.kind = .publicInput) (h : sys.Links c.column column) :
    (constrainInstance sys c column row >>= f).Ends (l.withWitness ⟨m, copies⟩) b l' ↔
      (f ()).Ends (l.withWitness ⟨m, copies ++ [⟨c, ⟨column, row⟩⟩]⟩) b l' :=
  ends_bind_of_unit fun _ _ => (ends_constrainInstance hkind).trans (and_iff_right h)

end Synthesis

end ScriptCircuit
