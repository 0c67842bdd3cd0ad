import Mathlib
import ScriptCircuit.Plonk.Region
import ScriptCircuit.Proofs.Plonk.Matrix

/-!
# What work on a region does

Work on a region that ends well has written a fixed list of cells, by offsets, and has made a fixed list of copy
constraints; it ends well exactly when these cells fit and the columns of the copies are enabled. `Does` says so, and goes
through sequences and loops, so the effect of a whole fill is read off its text.
-/

namespace ScriptCircuit

open MatrixAux

/-- The row of an offset in a region that starts at a row. -/
def rowAt (start offset : Nat) : Nat :=
  (start + offset) % UInt64.size

/-- Cells given by offsets, placed in a region that starts at a row. -/
def placed (start : Nat) (cells : List (Column × Nat × Felt)) : List (Column × Nat × Felt) :=
  cells.map fun (c, offset, x) => (c, rowAt start offset, x)

/-- Copy constraints between given cells and cells given by offsets, in a region that starts at a row. -/
def linked (start : Nat) (links : List (Cell × Column × Nat)) : List Copy :=
  links.map fun (source, c, offset) => ⟨source, ⟨c, rowAt start offset⟩⟩

/-- Values at an offset, as cells. -/
def cellsAt (offset : Nat) (values : List (Column × Felt)) : List (Column × Nat × Felt) :=
  values.map fun (column, x) => (column, offset, x)

/-- The cells at an offset are the given values, all at that offset. -/
theorem mem_cellsAt {column : Column} {offset offset' : Nat} {x : Felt} {values : List (Column × Felt)} :
    (column, offset, x) ∈ cellsAt offset' values ↔ offset = offset' ∧ (column, x) ∈ values := by
  simp only [cellsAt, List.mem_map, Prod.mk.injEq, Prod.exists]
  constructor
  · rintro ⟨_, _, h, rfl, rfl, rfl⟩
    exact ⟨rfl, h⟩
  · rintro ⟨rfl, h⟩
    exact ⟨_, _, h, rfl, rfl, rfl⟩

/-- Cells are placed one list behind the other. -/
theorem placed_append (start : Nat) (cells cells' : List (Column × Nat × Felt)) :
    placed start (cells ++ cells') = placed start cells ++ placed start cells' :=
  List.map_append

/-- Copy constraints are placed one list behind the other. -/
theorem linked_append (start : Nat) (links links' : List (Cell × Column × Nat)) :
    linked start (links ++ links') = linked start links ++ linked start links' :=
  List.map_append

/-- Both columns of a copy constraint take part in copy constraints. -/
def System.Links (sys : System) (source target : Column) : Prop :=
  sys.equalityEnabled source = true ∧ sys.equalityEnabled target = true

/-- Copy constraints by offsets are enabled in every region when their columns are. -/
theorem System.links_linked {sys : System} {links : List (Cell × Column × Nat)}
    (h : ∀ x ∈ links, sys.Links x.1.column x.2.1) (start : Nat) :
    ∀ copy ∈ linked start links, sys.Links copy.left.column copy.right.column := by
  intro copy hcopy
  obtain ⟨x, hx, rfl⟩ := List.mem_map.mp hcopy
  exact h x hx

/-- The check of a cell passes when copy constraints are enabled for its column. -/
theorem System.checkEquality_eq_ok (sys : System) (c : Cell) :
    sys.checkEquality c = .ok () ↔ sys.equalityEnabled c.column = true := by
  unfold checkEquality
  split <;> simp_all [pure, Except.pure, throw, throwThe, MonadExceptOf.throw]

/-- The check of a copy constraint passes when both its columns are enabled. -/
theorem System.checkCopy_eq_ok (sys : System) (c : Copy) :
    sys.checkCopy c = .ok () ↔ sys.Links c.left.column c.right.column := by
  rw [checkCopy, except_bind_eq_ok]
  constructor
  · rintro ⟨⟨⟩, hl, hr⟩
    exact ⟨(sys.checkEquality_eq_ok _).mp hl, (sys.checkEquality_eq_ok _).mp hr⟩
  · rintro ⟨hl, hr⟩
    exact ⟨(), (sys.checkEquality_eq_ok _).mpr hl, (sys.checkEquality_eq_ok _).mpr hr⟩

namespace Filling

/-- A cell lies in the region and in the matrix. -/
def Fits (s : Filling) (c : Column) (offset : Nat) : Prop :=
  offset < s.region.height ∧ rowAt s.region.start offset < s.matrix.rows ∧ s.matrix.HasColumn c

/-- The state after cells are written and copy constraints are made. -/
def after (s : Filling) (cells : List (Column × Nat × Felt)) (links : List (Cell × Column × Nat)) : Filling where
  region := { s.region with copies := s.region.copies ++ linked s.region.start links }
  matrix := s.matrix.writeAll (placed s.region.start cells)

/-- Nothing written and nothing linked leaves the state. -/
theorem after_nil (s : Filling) : s.after [] [] = s := by
  simp [after, placed, linked, Matrix.writeAll_nil]

/-- What is written and linked behind something else is written and linked together with it. -/
theorem after_after (s : Filling) (cells cells' : List (Column × Nat × Felt)) (links links' : List (Cell × Column × Nat)) :
    (s.after cells links).after cells' links' = s.after (cells ++ cells') (links ++ links') := by
  simp [after, placed_append, linked_append, Matrix.writeAll_append]

/-- The region stays where it starts. -/
theorem start_after (s : Filling) (cells : List (Column × Nat × Felt)) (links : List (Cell × Column × Nat)) :
    (s.after cells links).region.start = s.region.start :=
  rfl

/-- What is written leaves what fits. -/
theorem fits_after (s : Filling) (cells : List (Column × Nat × Felt)) (links : List (Cell × Column × Nat)) (c : Column)
    (offset : Nat) : (s.after cells links).Fits c offset ↔ s.Fits c offset := by
  simp [Fits, after, Matrix.rows_writeAll, Matrix.hasColumn_writeAll]

end Filling

/-- A region lies in a matrix. -/
def Region.Inside (r : Region) (m : Matrix) : Prop :=
  r.start + r.height ≤ m.rows ∧ m.rows ≤ UInt64.size

namespace Region.Inside

variable {r : Region} {m : Matrix} (h : r.Inside m)
include h

theorem rowAt_eq {offset : Nat} (hoffset : offset < r.height) : rowAt r.start offset = r.start + offset :=
  Nat.mod_eq_of_lt (Nat.lt_of_lt_of_le (Nat.add_lt_add_left hoffset _) (Nat.le_trans h.1 h.2))

/-- A cell inside the region fits when the matrix has its column. -/
theorem fits {c : Column} (hcolumn : m.HasColumn c) {offset : Nat} (hoffset : offset < r.height) :
    Filling.Fits ⟨r, m⟩ c offset := by
  refine ⟨hoffset, ?_, hcolumn⟩
  rw [h.rowAt_eq hoffset]
  exact Nat.lt_of_lt_of_le (Nat.add_lt_add_left hoffset _) h.1

/-- Writes keep a region inside the matrix. -/
theorem writeAll (cells : List (Column × Nat × Felt)) : r.Inside (m.writeAll cells) := by
  rw [Inside, Matrix.rows_writeAll]
  exact h

end Region.Inside

/-- Work passes a state from step to step: doing nothing ends well with the state as it was, and a sequence ends well when
both of its works do, one after the other. -/
structure PassesState {m : Type → Type} [Monad m] {σ : Type} (Ends : {α : Type} → m α → σ → α → σ → Prop) : Prop where
  ends_pure : ∀ {α : Type} {a b : α} {s t : σ}, Ends (pure a) s b t ↔ b = a ∧ t = s
  ends_bind : ∀ {α β : Type} {work : m α} {f : α → m β} {s t : σ} {b : β},
    Ends (work >>= f) s b t ↔ ∃ a u, Ends work s a u ∧ Ends (f a) u b t

/-- Work whose result is put to a pure use ends well when the work does. -/
theorem PassesState.ends_map {m : Type → Type} [Monad m] {σ : Type} {Ends : {α : Type} → m α → σ → α → σ → Prop}
    (h : PassesState Ends) {α β : Type} {work : m α} {f : α → β} {s t : σ} {b : β} :
    Ends (work >>= fun a => pure (f a)) s b t ↔ ∃ a, Ends work s a t ∧ b = f a := by
  simp only [h.ends_bind, h.ends_pure]
  exact ⟨fun ⟨a, _, hwork, hb, ht⟩ => ⟨a, ht ▸ hwork, hb⟩, fun ⟨a, hwork, hb⟩ => ⟨a, t, hwork, hb, rfl⟩⟩

namespace Fill

variable {α β : Type}

/-- The work ends well, with a result and a state. -/
def Ends (work : Fill α) (s : Filling) (a : α) (s' : Filling) : Prop :=
  work.run s = (.ok a, s')

/-- Doing nothing ends well, with the state as it was. -/
theorem ends_pure {a b : α} {s s' : Filling} : (pure a : Fill α).Ends s b s' ↔ b = a ∧ s' = s := by
  simp only [Ends, ExceptT.run_pure]
  constructor
  · intro h
    cases h
    exact ⟨rfl, rfl⟩
  · rintro ⟨rfl, rfl⟩
    rfl

/-- Works in sequence: the first failure ends them, and what was done before it stays done. -/
theorem run_bind (work : Fill α) (f : α → Fill β) (s : Filling) :
    (work >>= f).run s = match work.run s with
      | (.ok a, t) => (f a).run t
      | (.error e, t) => (.error e, t) := by
  simp only [bind, ExceptT.bind, ExceptT.mk, ExceptT.run, ExceptT.bindCont, StateT.bind]
  rcases (work s : Except Error α × Filling) with ⟨x, t⟩
  cases x <;> rfl

/-- A sequence ends well when the first work does and the second does from there. -/
theorem ends_bind {work : Fill α} {f : α → Fill β} {s s' : Filling} {b : β} :
    (work >>= f).Ends s b s' ↔ ∃ a t, work.Ends s a t ∧ (f a).Ends t b s' := by
  unfold Ends
  rw [run_bind]
  rcases work.run s with ⟨x, t⟩
  cases x with
  | error e =>
    constructor
    · nofun
    · rintro ⟨_, _, h, _⟩
      cases h
  | ok a =>
    constructor
    · intro h
      exact ⟨a, t, rfl, h⟩
    · rintro ⟨_, _, h, h'⟩
      cases h
      exact h'

/-- Work on a region passes the state of the region and the matrix. -/
theorem passesState : PassesState Fill.Ends :=
  ⟨ends_pure, ends_bind⟩

/-- Work whose result is dropped ends well when the work does. -/
theorem ends_discard {work : Fill α} {s s' : Filling} {u : Unit} :
    (discard work : Fill Unit).Ends s u s' ↔ ∃ a, work.Ends s a s' := by
  have hbind : (discard work : Fill Unit) = work >>= fun _ => pure () := rfl
  simp only [hbind, passesState.ends_map, and_true]

/-- The work ends well exactly when its cells fit and its copies are enabled; then it has written the cells, made the
copies, and given a result that depends on nothing but the first row of the region. -/
def Does (work : Fill α) (sys : System) (cells : List (Column × Nat × Felt)) (links : List (Cell × Column × Nat))
    (result : Nat → α) : Prop :=
  ∀ s a s', work.Ends s a s' ↔
    (∀ x ∈ cells, s.Fits x.1 x.2.1) ∧ (∀ x ∈ links, sys.Links x.1.column x.2.1) ∧ a = result s.region.start ∧
      s' = s.after cells links

variable {sys : System}

/-- Doing nothing writes and links nothing. -/
theorem does_pure (a : α) : (pure a : Fill α).Does sys [] [] fun _ => a := by
  intro s b s'
  rw [ends_pure, Filling.after_nil]
  simp

/-- Work that only hands out what the first row of the region decides. -/
theorem does_hand (result : Nat → α) : Does (fun s => (pure (result s.region.start), s)) sys [] [] result := by
  intro s a s'
  rw [Filling.after_nil]
  change ((Except.ok (result s.region.start), s) : Except Error α × Filling) = (.ok a, s') ↔ _
  rw [Prod.mk.injEq, Except.ok.injEq, eq_comm (a := a), eq_comm (a := s')]
  simp

/-- The effects of two works in sequence follow each other. -/
theorem Does.bind {work : Fill α} {f : α → Fill β} {cells cells' : List (Column × Nat × Felt)}
    {links links' : List (Cell × Column × Nat)} {result : Nat → α} {result' : α → Nat → β}
    (h : work.Does sys cells links result) (h' : ∀ a, (f a).Does sys cells' links' (result' a)) :
    (work >>= f).Does sys (cells ++ cells') (links ++ links') fun start => result' (result start) start := by
  intro s b s'
  rw [ends_bind]
  constructor
  · rintro ⟨a, t, hw, hf⟩
    obtain ⟨hc, hl, rfl, rfl⟩ := (h s a t).mp hw
    obtain ⟨hc', hl', rfl, rfl⟩ := (h' _ _ _ _).mp hf
    refine ⟨?_, ?_, by rw [Filling.start_after], Filling.after_after ..⟩
    · intro x hx
      rcases List.mem_append.mp hx with hx | hx
      · exact hc x hx
      · exact (Filling.fits_after ..).mp (hc' x hx)
    · intro x hx
      rcases List.mem_append.mp hx with hx | hx
      · exact hl x hx
      · exact hl' x hx
  · rintro ⟨hc, hl, rfl, rfl⟩
    refine ⟨result s.region.start, s.after cells links, (h _ _ _).mpr ⟨?_, ?_, rfl, rfl⟩, (h' _ _ _ _).mpr ⟨?_, ?_, ?_, ?_⟩⟩
    · exact fun x hx => hc x (List.mem_append_left _ hx)
    · exact fun x hx => hl x (List.mem_append_left _ hx)
    · exact fun x hx => (Filling.fits_after ..).mpr (hc x (List.mem_append_right _ hx))
    · exact fun x hx => hl x (List.mem_append_right _ hx)
    · rw [Filling.start_after]
    · exact (Filling.after_after ..).symm

/-- Work whose result is not used. -/
theorem Does.andThen {work : Fill Unit} {next : Fill β} {cells cells' : List (Column × Nat × Felt)}
    {links links' : List (Cell × Column × Nat)} {result : Nat → Unit} {result' : Nat → β}
    (h : work.Does sys cells links result) (h' : next.Does sys cells' links' result') :
    (work >>= fun _ => next).Does sys (cells ++ cells') (links ++ links') result' :=
  h.bind fun _ => h'

/-- Work whose result is put to a pure use. -/
theorem Does.map {work : Fill α} {cells : List (Column × Nat × Felt)} {links : List (Cell × Column × Nat)}
    {result : Nat → α} (h : work.Does sys cells links result) (g : α → β) :
    (work >>= fun a => pure (g a)).Does sys cells links fun start => g (result start) := by
  have hbind := h.bind fun a => does_pure (g a)
  rw [List.append_nil, List.append_nil] at hbind
  exact hbind

/-- Dropping the result changes no effect. -/
theorem Does.discard {work : Fill α} {cells : List (Column × Nat × Felt)} {links : List (Cell × Column × Nat)}
    {result : Nat → α} (h : work.Does sys cells links result) :
    (Functor.discard work : Fill Unit).Does sys cells links fun _ => () := by
  intro s a s'
  rw [ends_discard]
  constructor
  · rintro ⟨b, hb⟩
    obtain ⟨hc, hl, -, rfl⟩ := (h _ _ _).mp hb
    exact ⟨hc, hl, rfl, rfl⟩
  · rintro ⟨hc, hl, -, rfl⟩
    exact ⟨_, (h _ _ _).mpr ⟨hc, hl, rfl, rfl⟩⟩

/-- The effects of the rounds of a loop follow each other. -/
theorem does_forM {xs : List β} {f : β → Fill Unit} {cells : β → List (Column × Nat × Felt)}
    {links : β → List (Cell × Column × Nat)} (h : ∀ x ∈ xs, (f x).Does sys (cells x) (links x) fun _ => ()) :
    (xs.forM f).Does sys (xs.flatMap cells) (xs.flatMap links) fun _ => () := by
  induction xs with
  | nil => exact does_pure ()
  | cons x xs ih =>
    rw [List.flatMap_cons, List.flatMap_cons]
    exact (h x List.mem_cons_self).andThen (ih fun y hy => h y (List.mem_cons_of_mem _ hy))

/-- The same for a loop that gathers results. -/
theorem does_mapM {xs : List β} {f : β → Fill α} {cells : β → List (Column × Nat × Felt)} {result : Nat → β → α}
    (h : ∀ x ∈ xs, (f x).Does sys (cells x) [] fun start => result start x) :
    (xs.mapM f).Does sys (xs.flatMap cells) [] fun start => xs.map (result start) := by
  induction xs with
  | nil => exact does_pure []
  | cons x xs ih =>
    have hrest : ∀ a, (xs.mapM f >>= fun rest => pure (a :: rest)).Does sys (xs.flatMap cells) []
        fun start => a :: xs.map (result start) := fun a =>
      (ih fun y hy => h y (List.mem_cons_of_mem _ hy)).map (a :: ·)
    rw [List.mapM_cons, List.flatMap_cons]
    exact (h x List.mem_cons_self).bind hrest

/-! ## The primitives -/

/-- A demand ends well when it is met, and changes nothing. -/
theorem ends_require {check : Region → Except Error Unit} {s s' : Filling} {u : Unit} :
    (require check).Ends s u s' ↔ check s.region = .ok () ∧ s' = s := by
  change (check s.region, s) = (.ok (), s') ↔ _
  rw [Prod.mk.injEq, eq_comm (a := s)]

/-- The row of an offset is found exactly inside the region. -/
theorem ends_place {offset row : Nat} {s s' : Filling} :
    (place offset).Ends s row s' ↔ offset < s.region.height ∧ row = rowAt s.region.start offset ∧ s' = s := by
  change (if s.region.height ≤ offset then _ else _ : Except Error Nat × Filling) = _ ↔ _
  split
  · rename_i h
    simp [throw, throwThe, MonadExceptOf.throw, Nat.not_lt.mpr h]
  · rename_i h
    simp only [pure, Except.pure, Prod.mk.injEq, Except.ok.injEq, Nat.not_le.mp h, true_and, Region.row, rowAt]
    constructor <;> exact fun ⟨a, b⟩ => ⟨a.symm, b.symm⟩

/-- A cell is written exactly when the matrix has its row and its column. -/
theorem ends_write {c : Column} {row : Nat} {x : Felt} {s s' : Filling} {u : Unit} :
    (write c row x).Ends s u s' ↔
      (row < s.matrix.rows ∧ s.matrix.HasColumn c) ∧ s' = { s with matrix := s.matrix.write c row x } := by
  rw [← Matrix.checkCell_eq_ok]
  change @Eq (Except Error Unit × Filling) (write c row x s) (.ok u, s') ↔ _
  simp only [write]
  cases s.matrix.checkCell c row with
  | error e => simp [throw, throwThe, MonadExceptOf.throw]
  | ok u =>
    simp only [pure, Except.pure, Prod.mk.injEq, true_and]
    exact eq_comm

/-- Assigning a value writes one cell and hands it out. -/
theorem does_assign (c : Column) (offset : Nat) (x : Felt) :
    (assign c offset x).Does sys [(c, offset, x)] [] fun start => ⟨⟨c, rowAt start offset⟩, x⟩ := by
  intro s a s'
  have hassign : assign c offset x = place offset >>= fun row => write c row x >>= fun _ => pure ⟨⟨c, row⟩, x⟩ := rfl
  simp only [hassign, ends_bind, ends_place, ends_write, ends_pure]
  constructor
  · rintro ⟨row, t, ⟨ho, rfl, rfl⟩, _, t', ⟨⟨hr, hc⟩, rfl⟩, rfl, rfl⟩
    refine ⟨?_, by simp, rfl, ?_⟩
    · simpa [Filling.Fits] using ⟨ho, hr, hc⟩
    · simp [Filling.after, placed, linked, Matrix.writeAll]
  · rintro ⟨hc, -, rfl, rfl⟩
    obtain ⟨ho, hr, hc⟩ := hc _ List.mem_cons_self
    refine ⟨_, _, ⟨ho, rfl, rfl⟩, (), _, ⟨⟨hr, hc⟩, rfl⟩, rfl, ?_⟩
    simp [Filling.after, placed, linked, Matrix.writeAll]

/-- Assigning a value to an advice column writes one cell and hands it out. -/
theorem does_assignAdvice {c : Column} (offset : Nat) (x : Felt) (h : c.kind = .advice) :
    (assignAdvice c offset x).Does sys [(c, offset, x)] [] fun start => ⟨⟨c, rowAt start offset⟩, x⟩ := by
  intro s a s'
  have hassign : assignAdvice c offset x = (require fun r => if c.kind = .advice then pure () else throw (.notAdvice r.name c))
      >>= fun _ => assign c offset x := rfl
  rw [← does_assign c offset x s a s', hassign, ends_bind]
  simp only [ends_require, if_pos h]
  constructor
  · rintro ⟨_, _, ⟨-, rfl⟩, hs⟩
    exact hs
  · intro hs
    exact ⟨(), s, ⟨rfl, rfl⟩, hs⟩

/-- Writing values one by one writes their cells. -/
theorem does_assignAll (offset : Nat) {values : List (Column × Felt)} (h : ∀ x ∈ values, x.1.kind = .advice) :
    (values.forM fun (column, x) => discard (assignAdvice column offset x) : Fill Unit).Does sys (cellsAt offset values)
      [] fun _ => () := by
  have hcells : cellsAt offset values = values.flatMap fun (column, x) => [(column, offset, x)] := by
    rw [cellsAt, List.map_eq_flatMap]
  have hlinks : ([] : List (Cell × Column × Nat)) = values.flatMap fun _ => [] := by simp
  rw [hcells, hlinks]
  exact does_forM fun x hx => (does_assignAdvice offset x.2 (h x hx)).discard

/-- Enabling a selector writes a one. -/
theorem does_enable (selector : Column) (offset : Nat) :
    (enable selector offset).Does sys [(selector, offset, 1)] [] fun _ => () :=
  (does_assign selector offset 1).discard

/-- A copy constraint is made exactly between enabled columns, and waits with the region. -/
theorem ends_constrainEqual {left right : Cell} {s s' : Filling} {u : Unit} :
    (constrainEqual sys left right).Ends s u s' ↔
      sys.Links left.column right.column ∧ s' = { s with region.copies := s.region.copies ++ [⟨left, right⟩] } := by
  rw [← System.checkCopy_eq_ok sys ⟨left, right⟩]
  change @Eq (Except Error Unit × Filling) (constrainEqual sys left right s) (.ok u, s') ↔ _
  simp only [constrainEqual]
  cases sys.checkCopy ⟨left, right⟩ with
  | error e => simp [throw, throwThe, MonadExceptOf.throw]
  | ok u =>
    simp only [pure, Except.pure, Prod.mk.injEq, true_and]
    exact eq_comm

/-- Copying a cell writes its value and makes a copy constraint with it. -/
theorem does_copyAdvice {c : Column} (source : AssignedCell) (offset : Nat) (h : c.kind = .advice) :
    (copyAdvice sys source c offset).Does sys [(c, offset, source.value)] [(source.cell, c, offset)]
      fun start => ⟨⟨c, rowAt start offset⟩, source.value⟩ := by
  intro s a s'
  have hcopy : copyAdvice sys source c offset = assignAdvice c offset source.value >>= fun copied =>
      constrainEqual sys source.cell copied.cell >>= fun _ => pure copied := rfl
  have hassign : (assignAdvice c offset source.value).Does sys _ _ _ := does_assignAdvice offset source.value h
  simp only [hcopy, ends_bind, hassign _ _ _, ends_constrainEqual, ends_pure]
  constructor
  · rintro ⟨_, _, ⟨hc, -, rfl, rfl⟩, _, _, ⟨hl, rfl⟩, rfl, rfl⟩
    refine ⟨hc, by simpa using hl, rfl, ?_⟩
    simp [Filling.after, linked]
  · rintro ⟨hc, hl, rfl, rfl⟩
    refine ⟨_, _, ⟨hc, by simp, rfl, rfl⟩, (), _, ⟨hl _ List.mem_cons_self, rfl⟩, rfl, ?_⟩
    simp [Filling.after, linked]

end Fill

end ScriptCircuit
