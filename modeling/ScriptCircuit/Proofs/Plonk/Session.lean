import Mathlib
import ScriptCircuit.Proofs.Plonk.Declaration
import ScriptCircuit.Proofs.Plonk.OpenRegions

/-!
# Sessions with decompositions

Over open regions decompositions are made, in any number and in turns with other calls, which leave their columns alone. A request for
a decomposition is granted exactly when the value fits and there is room. What is left of the columns at the end comes from the
granted requests, from the table of the bytes, and from the first cells of requests that were refused halfway.
-/

namespace ScriptCircuit

namespace ByteRange

/-- A decomposition that is asked for, in one of the open regions. -/
structure Request (ι : Type) where
  region : ι
  offset : Nat
  source : AssignedCell
  bits : Nat

namespace Request

variable {ι : Type}

/-- The value fits into the bits that are asked for. -/
def Fits (q : Request ι) : Prop :=
  WholeBytes q.bits ∧ q.source.value.toNat < 2 ^ q.bits

/-- The region has the rows, and the source takes part in copy constraints. -/
def HasRoom (q : Request ι) (sys : System) (region : ι → Region) : Prop :=
  q.offset + q.bits / 8 < (region q.region).height ∧ sys.equalityEnabled q.source.cell.column = true

/-- The first row. -/
def row (q : Request ι) (region : ι → Region) : Nat :=
  (region q.region).start + q.offset

/-- The rows of the bytes and of the end. -/
def Covers (q : Request ι) (region : ι → Region) (row : Nat) : Prop :=
  q.row region ≤ row ∧ row ≤ q.row region + q.bits / 8

/-- The cells that are written. -/
def cells (q : Request ι) (b : ByteRange) (region : ι → Region) : List (Column × Nat × Felt) :=
  placed (region q.region).start (b.sumCells q.offset q.source q.bits)

/-- The copy constraint that is made. -/
def copy (q : Request ι) (b : ByteRange) (region : ι → Region) : Copy :=
  ⟨q.source.cell, ⟨b.runningSum, rowAt (region q.region).start q.offset⟩⟩

/-- The byte cells that are given back. -/
def bytes (q : Request ι) (b : ByteRange) (region : ι → Region) : List AssignedCell :=
  b.bytesFrom (region q.region).start q.offset q.source.value.toNat (q.bits / 8)

/-- The cells that are written are those of a decomposition. -/
theorem writes_of_mem_cells {q : Request ι} {b : ByteRange} {region : ι → Region} {x : Column × Nat × Felt}
    (h : x ∈ q.cells b region) : b.Writes x := by
  obtain ⟨offset, hmem, -⟩ := mem_placed.mp h
  exact (sumCells_bounds hmem).1

/-- The request is granted exactly when the value fits and there is room for it. -/
def Answered (q : Request ι) (b : ByteRange) (sys : System) (region : ι → Region)
    (result : Except Error (List AssignedCell)) : Prop :=
  ∀ bytes, result = .ok bytes ↔ q.Fits ∧ q.HasRoom sys region ∧ bytes = q.bytes b region

end Request

end ByteRange

/-- What is done with open regions where decompositions are made. -/
inductive OpenRegions.Event (ι : Type) where
  | decompose (q : ByteRange.Request ι)
  | call (i : ι) (call : RegionCall)
  | commit (i : ι)
  | link (left right : Cell)
  /-- writes the table of the bytes -/
  | load
  | table (name : String) (cells : List (Column × Nat × Felt))

namespace OpenRegions.Event

variable {ι : Type}

/-- An event that decomposes nothing leaves the columns of decompositions and their table alone. -/
def Spares (b : ByteRange) : Event ι → Prop
  | .call _ work => ∀ column, work.column? = some column → column ∉ b.owned
  | .table _ cells => ∀ x ∈ cells, x.1 ∉ b.owned
  | _ => True

/-- Two events do not decompose into the same rows. -/
def Apart (region : ι → Region) (e e' : Event ι) : Prop :=
  ∀ q q', e = .decompose q → e' = .decompose q' → ∀ row, ¬(q.Covers region row ∧ q'.Covers region row)

instance (region : ι → Region) : Std.Symm (Apart region) :=
  ⟨fun _ _ h q q' hq hq' row hcovers => h q' q hq' hq row hcovers.symm⟩

/-- The cells of a decomposition or of the table of the bytes that an event with a result has written. -/
def cells (b : ByteRange) (region : ι → Region) :
    Event ι → Except Error (List AssignedCell) → List (Column × Nat × Felt)
  | .decompose q, .ok _ => q.cells b region
  | .load, .ok _ => b.tableCells
  | _, _ => []

end OpenRegions.Event

namespace OpenRegions

variable {ι : Type} [DecidableEq ι]

/-- What an event does, with the cells it gives back. An event that fails leaves what it did before. -/
def act (s : OpenRegions ι) (b : ByteRange) (sys : System) : Event ι → Except Error (List AssignedCell) × OpenRegions ι
  | .decompose q => s.fill q.region (b.decompose sys q.offset q.source 8 q.bits)
  | .call i call => s.fill i (call.work sys >>= fun cell? => pure cell?.toList)
  | .commit i => s.commit sys i
  | .link left right => s.link sys left right
  | .load => s.fillTable ByteRange.tableName b.tableCells
  | .table name cells => s.fillTable name cells

/-- Events one after the other, with the results of all. -/
def run (s : OpenRegions ι) (b : ByteRange) (sys : System) :
    List (Event ι) → List (Event ι × Except Error (List AssignedCell)) × OpenRegions ι
  | [] => ([], s)
  | e :: events =>
    match s.act b sys e with
    | (result, s') =>
      match s'.run b sys events with
      | (results, s'') => ((e, result) :: results, s'')

end OpenRegions

/-! ## What an event does -/

/-- What an event changes of a matrix and its copy constraints. -/
structure OpenRegions.Change {ι : Type} (b : ByteRange) (sys : System) (region : ι → Region) (s s' : OpenRegions ι) (rows : Nat)
    (copies copies' : List Copy) (e : Event ι) (result : Except Error (List AssignedCell))
    (new : List (Column × Nat × Felt)) : Prop where
  follows : s.Follows sys s' copies copies'
  written : ∀ x ∈ e.cells b region result, x ∈ new ∧ x.2.1 < rows
  only : ∀ x ∈ new, x.1 ∈ b.owned → x ∈ b.tableCells ∨
    b.Writes x ∧ ∃ q, e = .decompose q ∧ ∀ bytes, result = .ok bytes → x ∈ q.cells b region
  answer : ∀ q, e = .decompose q → q.Answered b sys region result
  linked : ∀ q bytes, e = .decompose q → result = .ok bytes → s'.Keeps copies' (q.copy b region)

namespace OpenRegions

variable {ι : Type} [DecidableEq ι] {b : ByteRange} {sys : System} {region : ι → Region} {s : OpenRegions ι} {l : Layouter}
variable {m : Matrix} {copies : List Copy}

/-- An event makes such a change to open regions over a matrix. -/
def Performs (s : OpenRegions ι) (b : ByteRange) (sys : System) (region : ι → Region) (l : Layouter) (m : Matrix)
    (copies : List Copy) (e : Event ι) : Prop :=
  ∃ new copies', (s.act b sys e).2.layouter = l.withWitness ⟨m.writeAll new, copies'⟩ ∧
    Change b sys region s (s.act b sys e).2 m.rows copies copies' e (s.act b sys e).1 new

omit [DecidableEq ι] in
/-- A request is granted exactly when its value fits and there is room for it. It has then written its cells, and its copy
constraint waits with the region. -/
theorem ends_request (hb : b.Declared sys) (hrows : ∀ i, (region i).SameRows (s.region i))
    (hinside : ∀ i, (region i).Inside m) (hcolumns : ∀ c ∈ b.owned, m.HasColumn c) (q : ByteRange.Request ι)
    (bytes : List AssignedCell) (t : Filling) :
    (b.decompose sys q.offset q.source 8 q.bits).Ends ⟨s.region q.region, m⟩ bytes t ↔
      q.Fits ∧ q.HasRoom sys region ∧ bytes = q.bytes b region ∧
        t = Filling.wrote ⟨s.region q.region, m⟩ (q.cells b region) [q.copy b region] := by
  obtain ⟨hstart, hheight⟩ := hrows q.region
  have hinside' : (s.region q.region).Inside m := by
    rw [Region.Inside, hstart, hheight]
    exact hinside q.region
  have hafter : Filling.after ⟨s.region q.region, m⟩ (b.sumCells q.offset q.source q.bits)
      [(q.source.cell, b.runningSum, q.offset)] =
        Filling.wrote ⟨s.region q.region, m⟩ (q.cells b region) [q.copy b region] := by
    rw [ByteRange.Request.cells, ByteRange.Request.copy, ← hstart]
    rfl
  rw [hb.ends_decompose hinside' hcolumns, hafter, hstart, hheight]
  rfl

/-- A request changes its region and its columns, whether it is granted or refused halfway. -/
theorem performs_decompose (hb : b.Declared sys) (hl : s.layouter = l.withWitness ⟨m, copies⟩)
    (hrows : ∀ i, (region i).SameRows (s.region i)) (hinside : ∀ i, (region i).Inside m)
    (hcolumns : ∀ c ∈ b.owned, m.HasColumn c) (q : ByteRange.Request ι) :
    s.Performs b sys region l m copies (.decompose q) := by
  rcases hrun : (b.decompose sys q.offset q.source 8 q.bits).run ⟨s.region q.region, m⟩ with ⟨result, t⟩
  have hact : s.act b sys (.decompose q) = _ := fill_eq hl hrun
  have hends : ∀ bytes t', (b.decompose sys q.offset q.source 8 q.bits).Ends ⟨s.region q.region, m⟩ bytes t' ↔ _ :=
    ends_request hb hrows hinside hcolumns q
  have hanswer : q.Answered b sys region result := by
    intro bytes
    constructor
    · rintro rfl
      obtain ⟨hfits, hroom, hbytes, -⟩ := (hends bytes t).mp hrun
      exact ⟨hfits, hroom, hbytes⟩
    · rintro ⟨hfits, hroom, hbytes⟩
      exact (Prod.mk.inj (hrun.symm.trans ((hends bytes _).mpr ⟨hfits, hroom, hbytes, rfl⟩))).1
  unfold Performs
  rw [hact]
  cases result with
  | error e =>
    have hconfined := b.confined_decompose sys q.offset q.source 8 q.bits ⟨s.region q.region, m⟩
    rw [hrun] at hconfined
    obtain ⟨new, links, rfl, hnew, hlinks⟩ := hconfined
    refine ⟨new, copies, rfl, .fill hlinks, fun _ hx => absurd hx List.not_mem_nil, ?_, ?_, ?_⟩
    · exact fun x hx _ => .inr ⟨hnew x hx, q, rfl, by rintro _ ⟨⟩⟩
    · rintro _ ⟨rfl⟩
      exact hanswer
    · rintro _ _ - ⟨⟩
  | ok bytes =>
    obtain ⟨-, hroom, -, rfl⟩ := (hends bytes t).mp hrun
    have hfits : ∀ x ∈ b.sumCells q.offset q.source q.bits, Filling.Fits ⟨region q.region, m⟩ x.1 x.2.1 :=
      (hb.fits_sumCells (hinside q.region) hcolumns).mpr hroom.1
    refine ⟨q.cells b region, copies, rfl, ?_, ?_, ?_, ?_, ?_⟩
    · exact .fill (List.forall_mem_singleton.mpr ⟨hroom.2, hb.linked⟩)
    · intro x hx
      obtain ⟨offset, hmem, hrow⟩ := mem_placed.mp hx
      exact ⟨hx, hrow ▸ (hfits _ hmem).2.1⟩
    · exact fun x hx _ => .inr ⟨ByteRange.Request.writes_of_mem_cells hx, q, rfl, fun _ _ => hx⟩
    · rintro _ ⟨rfl⟩
      exact hanswer
    · rintro _ _ ⟨rfl⟩ _
      refine .inr ⟨q.region, ?_⟩
      dsimp only
      rw [Function.update_self]
      exact List.mem_append_right _ (List.mem_singleton.mpr rfl)

/-- A call changes its region and one column, which is none of the decompositions. -/
theorem performs_call (hl : s.layouter = l.withWitness ⟨m, copies⟩) (i : ι) {call : RegionCall}
    (hspare : (Event.call i call).Spares b) : s.Performs b sys region l m copies (.call i call) := by
  have hconfined : (call.work sys >>= fun cell? => pure cell?.toList).Confined sys fun x => call.column? = some x.1 :=
    (call.confined_work sys).bind fun _ => Fill.confined_pure _
  rcases hrun : (call.work sys >>= fun cell? => pure cell?.toList).run ⟨s.region i, m⟩ with ⟨result, t⟩
  have hact : s.act b sys (.call i call) = _ := fill_eq hl hrun
  obtain ⟨new, links, ht, hnew, hlinks⟩ := hconfined ⟨s.region i, m⟩
  rw [hrun] at ht
  change t = _ at ht
  unfold Performs
  rw [hact, ht]
  refine ⟨new, copies, rfl, .fill hlinks, nofun, ?_, nofun, nofun⟩
  exact fun x hx howned => absurd howned (hspare x.1 (hnew x hx))

/-- An event that writes a table; what it writes of the owned columns are bytes. -/
theorem performs_table (hl : s.layouter = l.withWitness ⟨m, copies⟩) {e : Event ι} {name : String}
    {cells : List (Column × Nat × Felt)} (hact : s.act b sys e = s.fillTable name cells) (hplain : ∀ q, e ≠ .decompose q)
    (hcells : ∀ x ∈ cells, x.1 ∈ b.owned → x ∈ b.tableCells)
    (hwritten : ∀ result, ∀ x ∈ e.cells b region result, x ∈ cells ∧ ∃ given, result = .ok given) :
    s.Performs b sys region l m copies e := by
  obtain ⟨result, written, hfill, hsub, hok⟩ := fillTable_eq hl name cells
  unfold Performs
  rw [hact, hfill]
  refine ⟨written, copies, rfl, .same_regions rfl fun _ h => h, fun x hx => ?_, ?_, ?_, ?_⟩
  · obtain ⟨hmem, given, hgiven⟩ := hwritten result x hx
    obtain ⟨rfl, hrow⟩ := hok given hgiven
    exact ⟨hmem, hrow x hmem⟩
  · exact fun x hx howned => .inl (hcells x (hsub hx) howned)
  · exact fun q hq => absurd hq (hplain q)
  · exact fun q _ hq => absurd hq (hplain q)

/-- A commit moves the copy constraints of a region to the witness. -/
theorem performs_commit (hl : s.layouter = l.withWitness ⟨m, copies⟩) {i : ι}
    (henabled : ∀ copy ∈ (s.region i).copies, sys.Links copy.left.column copy.right.column) :
    s.Performs b sys region l m copies (.commit i) := by
  have hact : s.act b sys (.commit i) = _ := commit_eq hl henabled
  unfold Performs
  rw [hact]
  refine ⟨[], _, rfl, ?_, nofun, nofun, nofun, nofun⟩
  exact .update rfl ⟨rfl, rfl⟩ nofun (List.subset_append_left ..) fun _ hcopy => .inl (List.mem_append_right _ hcopy)

/-- Tying two cells together adds a copy constraint or nothing. -/
theorem performs_link (hl : s.layouter = l.withWitness ⟨m, copies⟩) (left right : Cell) :
    s.Performs b sys region l m copies (.link left right) := by
  obtain ⟨result, copies', hlink, hsub⟩ := link_eq hl left right
  have hact : s.act b sys (.link left right) = _ := hlink
  unfold Performs
  rw [hact]
  exact ⟨[], copies', rfl, .same_regions rfl hsub, nofun, nofun, nofun, nofun⟩

/-- Every event makes such a change. -/
theorem performs (hb : b.Declared sys) (hl : s.layouter = l.withWitness ⟨m, copies⟩)
    (hrows : ∀ i, (region i).SameRows (s.region i)) (hinside : ∀ i, (region i).Inside m)
    (hcolumns : ∀ c ∈ b.owned, m.HasColumn c)
    (henabled : ∀ i, ∀ copy ∈ (s.region i).copies, sys.Links copy.left.column copy.right.column) {e : Event ι}
    (hspare : e.Spares b) : s.Performs b sys region l m copies e := by
  cases e with
  | decompose q => exact performs_decompose hb hl hrows hinside hcolumns q
  | call i call => exact performs_call hl i hspare
  | commit i => exact performs_commit hl (henabled i)
  | link left right => exact performs_link hl left right
  | load =>
    have hact : s.act b sys .load = s.fillTable ByteRange.tableName b.tableCells := by rw [act]
    refine performs_table hl hact nofun (fun x hx _ => hx) fun result x hx => ?_
    cases result with
    | error err => cases hx
    | ok given => exact ⟨hx, given, rfl⟩
  | table name cells =>
    refine performs_table hl rfl nofun (fun x hx howned => absurd howned (hspare x hx)) fun _ _ hx => ?_
    exact absurd hx List.not_mem_nil

end OpenRegions

/-! ## Sessions -/

/-- What is left of events on a fresh matrix: the cells that were written, the copy constraints, and where they come from. -/
structure OpenRegions.Session {ι : Type} (b : ByteRange) (sys : System) (l : Layouter) (region : ι → Region)
    (done : List (OpenRegions.Event ι × Except Error (List AssignedCell))) (s : OpenRegions ι) (cells : List (Column × Nat × Felt))
    (copies : List Copy) : Prop where
  layouter : s.layouter = l.withWitness ⟨(Matrix.zero sys l.rows).writeAll cells, copies⟩
  rows : ∀ i, (region i).SameRows (s.region i)
  enabled : ∀ i, ∀ copy ∈ (s.region i).copies, sys.Links copy.left.column copy.right.column
  written : ∀ e result, (e, result) ∈ done → ∀ x ∈ e.cells b region result, x ∈ cells ∧ x.2.1 < l.rows
  only : ∀ x ∈ cells, x.1 ∈ b.owned → x ∈ b.tableCells ∨ b.Writes x ∧
    ∃ q result, (.decompose q, result) ∈ done ∧ ∀ bytes, result = .ok bytes → x ∈ q.cells b region
  answers : ∀ q result, (.decompose q, result) ∈ done → q.Answered b sys region result
  linked : ∀ q bytes, (.decompose q, .ok bytes) ∈ done → s.Keeps copies (q.copy b region)

namespace OpenRegions

variable {ι : Type} {b : ByteRange} {sys : System} {region : ι → Region} {s : OpenRegions ι} {l : Layouter}
variable {done : List (Event ι × Except Error (List AssignedCell))} {cells : List (Column × Nat × Felt)} {copies : List Copy}

/-- A session starts with nothing done, on a fresh matrix with fresh regions. -/
theorem Session.start (hl : l.witness? = some ⟨.zero sys l.rows, []⟩) (hregion : ∀ i, (region i).copies = []) :
    Session b sys l region [] ⟨region, l⟩ [] [] := by
  have hnone : ∀ {p : Event ι × Except Error (List AssignedCell)}, p ∉ [] := List.not_mem_nil
  refine ⟨?_, fun i => ⟨rfl, rfl⟩, fun i copy hcopy => ?_, fun _ _ hp => absurd hp hnone, nofun,
    fun _ _ hp => absurd hp hnone, fun _ _ hp => absurd hp hnone⟩
  · rw [Matrix.writeAll_nil, Layouter.withWitness, ← hl]
  · rw [hregion i] at hcopy
    cases hcopy

variable [DecidableEq ι]

/-- One event more. -/
theorem Session.next (h : Session b sys l region done s cells copies) (hb : b.Declared sys)
    (hinside : ∀ i, (region i).Inside (Matrix.zero sys l.rows)) {e : Event ι} (hspare : e.Spares b) :
    ∃ cells' copies', Session b sys l region (done ++ [(e, (s.act b sys e).1)]) (s.act b sys e).2 cells' copies' := by
  have hcolumns : ∀ c ∈ b.owned, ((Matrix.zero sys l.rows).writeAll cells).HasColumn c :=
    fun c hc => (Matrix.hasColumn_writeAll _ cells c).mpr (hb.hasColumn l.rows c hc)
  obtain ⟨new, copies', hlayouter, hchange⟩ :=
    performs hb h.layouter h.rows (fun i => (hinside i).writeAll cells) hcolumns h.enabled hspare
  generalize s.act b sys e = act at hlayouter hchange ⊢
  obtain ⟨result, s'⟩ := act
  have hmem : ∀ e' result', (e', result') ∈ done ++ [(e, result)] →
      (e', result') ∈ done ∨ e = e' ∧ result = result' := by
    intro e' result' hy
    refine (List.mem_append.mp hy).imp_right fun hlast => ?_
    obtain ⟨rfl, rfl⟩ := Prod.mk.inj (List.mem_singleton.mp hlast)
    exact ⟨rfl, rfl⟩
  -- What holds of the events before still holds, and the new event adds its own cells, answer and link.
  refine ⟨cells ++ new, copies', ?_, ?_, ?_, ?_, ?_, ?_, ?_⟩
  · rw [Matrix.writeAll_append]
    exact hlayouter
  · intro i
    obtain ⟨hstart, hheight⟩ := h.rows i
    obtain ⟨hstart', hheight'⟩ := hchange.follows.rows i
    exact ⟨hstart'.trans hstart, hheight'.trans hheight⟩
  · intro i copy hcopy
    exact (hchange.follows.enabled i copy hcopy).elim (h.enabled i copy) id
  · intro e' result' hy x hx
    rcases hmem e' result' hy with hy | ⟨rfl, rfl⟩
    · exact (h.written e' result' hy x hx).imp_left (List.mem_append_left _)
    · have hrows : ((Matrix.zero sys l.rows).writeAll cells).rows = l.rows := Matrix.rows_writeAll _ cells
      rw [← hrows]
      exact (hchange.written x hx).imp_left (List.mem_append_right _)
  · intro x hx howned
    rcases List.mem_append.mp hx with hx | hx
    · refine (h.only x hx howned).imp_right ?_
      rintro ⟨hwrites, q, result', hy, hcells⟩
      exact ⟨hwrites, q, result', List.mem_append_left _ hy, hcells⟩
    · refine (hchange.only x hx howned).imp_right ?_
      rintro ⟨hwrites, q, rfl, hcells⟩
      exact ⟨hwrites, q, result, List.mem_append_right _ (List.mem_singleton.mpr rfl), hcells⟩
  · intro q result' hy
    rcases hmem _ result' hy with hy | ⟨hq, rfl⟩
    · exact h.answers q result' hy
    · exact hchange.answer q hq
  · intro q bytes hy
    rcases hmem _ _ hy with hy | ⟨hq, hbytes⟩
    · exact hchange.follows.kept _ (h.linked q bytes hy)
    · exact hchange.linked q bytes hq hbytes

/-- All events of a run. -/
theorem Session.run (h : Session b sys l region done s cells copies) (hb : b.Declared sys)
    (hinside : ∀ i, (region i).Inside (Matrix.zero sys l.rows)) {events : List (Event ι)}
    (hspare : ∀ e ∈ events, e.Spares b) :
    ∃ cells' copies', Session b sys l region (done ++ (s.run b sys events).1) (s.run b sys events).2 cells' copies' := by
  induction events generalizing done s cells copies with
  | nil =>
    rw [run, List.append_nil]
    exact ⟨cells, copies, h⟩
  | cons e events ih =>
    rw [List.forall_mem_cons] at hspare
    obtain ⟨cells', copies', h'⟩ := h.next hb hinside hspare.1
    have hrest := ih h' hspare.2
    rw [List.append_assoc] at hrest
    exact hrest

end OpenRegions

end ScriptCircuit
