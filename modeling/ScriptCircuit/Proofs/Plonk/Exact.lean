import Mathlib
import ScriptCircuit.Proofs.Plonk.Schedule

/-!
# A check reports exactly what fails

What a polynomial is worth on a row is said once more by a relation: a query is worth the cell in its column whose row is
congruent to the row at its rotation, and nothing where there is no such cell. Measured by it, the failures of a check are
those of the sites that fail, each once, gates before lookups before copy constraints, under every schedule.
-/

namespace ScriptCircuit

open MatrixAux SatisfiedAux

namespace ExactAux

/-- A list is the image of another when it is so element by element. -/
theorem forall₂_iff_eq_map {α β : Type} {r : α → β → Prop} {f : α → β} {xs : List α} {ys : List β}
    (h : ∀ x ∈ xs, ∀ y, r x y ↔ y = f x) : List.Forall₂ r xs ys ↔ ys = xs.map f := by
  induction xs generalizing ys with
  | nil => rw [List.forall₂_nil_left_iff, List.map_nil]
  | cons x xs ih =>
    rw [List.forall_mem_cons] at h
    simp only [List.forall₂_cons_left_iff, h.1, ih h.2, List.map_cons]
    exact ⟨fun ⟨_, _, hy, hys, hcons⟩ => by rw [hcons, hy, hys], fun hcons => ⟨_, _, rfl, rfl, hcons⟩⟩

/-- Numbered entries have increasing numbers. -/
theorem pairwise_zipIdx {α : Type} (xs : List α) : xs.zipIdx.Pairwise fun x y => x.2 < y.2 := by
  have h : (xs.zipIdx.map Prod.snd).Pairwise (· < ·) := by
    rw [List.zipIdx_map_snd]
    exact List.pairwise_lt_range'
  exact List.pairwise_map.mp h

/-- A list that is gone through with its numbers, which are not used, is gone through. -/
theorem flatMap_zipIdx {α β : Type} (xs : List α) (f : α → List β) : xs.zipIdx.flatMap (fun x => f x.1) = xs.flatMap f := by
  nth_rewrite 2 [← List.zipIdx_map_fst 0 xs]
  rw [List.flatMap_map]

end ExactAux

open ExactAux

/-- The columns that a polynomial queries. -/
def Expr.columns : Expr → List Column
  | const _ => []
  | query column _ => [column]
  | add left right => left.columns ++ right.columns
  | mul left right => left.columns ++ right.columns
  | neg e => e.columns

/-- A place where a check can fail. Gates, lookups, polynomials of a gate and copy constraints are numbered as declared. -/
inductive Site where
  | gate (gate row index : Nat)
  | lookup (lookup row : Nat)
  | copy (copy : Nat)
deriving DecidableEq

/-- The order in which failures are reported. -/
def Site.Before : Site → Site → Prop
  | gate g row index, gate g' row' index' => g < g' ∨ g = g' ∧ (row < row' ∨ row = row' ∧ index < index')
  | gate .., lookup .. => True
  | gate .., copy _ => True
  | lookup l row, lookup l' row' => l < l' ∨ l = l' ∧ row < row'
  | lookup .., copy _ => True
  | copy k, copy k' => k < k'
  | _, _ => False

namespace Claim

variable {c : Claim} {row : Nat}

/-- A column exists: public values are supplied for it, or the matrix has it. -/
def HasColumn (c : Claim) (column : Column) : Prop :=
  if column.kind = .publicInput then column.index < c.instances.size else c.witness.matrix.HasColumn column

/-- Gates and lookups query columns that exist, and so do the tables; copy constraints name cells that exist. -/
structure Proper (c : Claim) : Prop where
  gates : ∀ g ∈ c.system.gates, ∀ e ∈ g.polys, ∀ column ∈ e.columns, c.HasColumn column
  lookups : ∀ l ∈ c.system.lookups, ∀ e ∈ l.inputs, ∀ column ∈ e.columns, c.HasColumn column
  tables : c.HasTables
  copies : ∀ copy ∈ c.witness.copies, c.HasCell copy.left ∧ c.HasCell copy.right

/-- What a polynomial is worth on a row. -/
inductive Evaluates (c : Claim) (row : Nat) : Expr → Felt → Prop
  | const (x : Felt) : c.Evaluates row (.const x) x
  | query {column : Column} {rotation : Int} {target : Nat} {x : Felt} (hinside : target < c.rows)
      (hmod : (target : Int) ≡ row + rotation [ZMOD c.rows]) (hvalue : c.cellValue ⟨column, target⟩ = .ok x) :
      c.Evaluates row (.query column rotation) x
  | add {a b : Expr} {x y : Felt} (ha : c.Evaluates row a x) (hb : c.Evaluates row b y) : c.Evaluates row (.add a b) (x + y)
  | mul {a b : Expr} {x y : Felt} (ha : c.Evaluates row a x) (hb : c.Evaluates row b y) : c.Evaluates row (.mul a b) (x * y)
  | neg {a : Expr} {x : Felt} (ha : c.Evaluates row a x) : c.Evaluates row (.neg a) (-x)

/-- A tuple is the inputs of a lookup on a row. -/
def InputsAre (c : Claim) (l : Lookup) (row : Nat) (tuple : List Felt) : Prop :=
  List.Forall₂ (c.Evaluates row) l.inputs tuple

/-- A tuple is a row of the table of a lookup. -/
def TableHas (c : Claim) (l : Lookup) (tuple : List Felt) : Prop :=
  ∃ row, row < c.rows ∧ List.Forall₂ (fun column x => c.cellValue ⟨column, row⟩ = .ok x) l.table tuple

/-- A site fails, with the failure that is reported for it. -/
inductive FailsAt (c : Claim) : Site → Failure → Prop
  | gate {i row index : Nat} {g : Gate} {e : Expr} {x : Felt} (hgate : c.system.gates[i]? = some g) (hrow : row < c.rows)
      (hpoly : g.polys[index]? = some e) (hvalue : c.Evaluates row e x) (hne : x ≠ 0) :
      c.FailsAt (.gate i row index) (.gate g.name index row)
  | lookup {i row : Nat} {l : Lookup} {tuple : List Felt} (hlookup : c.system.lookups[i]? = some l) (hrow : row < c.rows)
      (hinputs : c.InputsAre l row tuple) (hmissing : ¬c.TableHas l tuple) : c.FailsAt (.lookup i row) (.lookup l.name row)
  | copy {i : Nat} {copy : Copy} {x y : Felt} (hcopy : c.witness.copies[i]? = some copy)
      (hleft : c.cellValue copy.left = .ok x) (hright : c.cellValue copy.right = .ok y) (hne : x ≠ y) :
      c.FailsAt (.copy i)
        (.copy (c.system.cellName copy.left ++ " != " ++ c.system.cellName copy.right) copy.left.row)

/-- The witness and the public values satisfy the system. -/
structure Satisfied (c : Claim) : Prop where
  gates : ∀ g ∈ c.system.gates, ∀ row, row < c.rows → ∀ e ∈ g.polys, c.Evaluates row e 0
  lookups : ∀ l ∈ c.system.lookups, ∀ row, row < c.rows → ∃ tuple, c.InputsAre l row tuple ∧ c.TableHas l tuple
  copies : ∀ copy ∈ c.witness.copies, ∃ x, c.cellValue copy.left = .ok x ∧ c.cellValue copy.right = .ok x

/-! ## Values -/

/-- A cell exists when its column and its row do. -/
theorem hasCell_of_hasColumn {column : Column} (hcolumn : c.HasColumn column) (hrow : row < c.rows) :
    c.HasCell ⟨column, row⟩ := by
  unfold HasColumn at hcolumn
  unfold HasCell
  split
  · rwa [if_pos ‹_›] at hcolumn
  · rw [if_neg ‹_›] at hcolumn
    exact ⟨hrow, hcolumn⟩

/-- A public value that was supplied is read back, and zero behind the supplied ones. -/
theorem cellValue_publicInput {sys : System} {w : Witness} {instances : List (List Felt)} (hmake : make sys w instances = .ok c)
    {index : Nat} {values : List Felt} (hvalues : instances[index]? = some values) (row : Nat) :
    c.cellValue ⟨⟨.publicInput, index⟩, row⟩ = .ok (values.getD row 0) := by
  obtain ⟨-, -, rfl⟩ := make_eq_ok.mp hmake
  obtain ⟨hindex, hget⟩ := List.getElem?_eq_some_iff.mp hvalues
  rw [cellValue_eq_ok]
  constructor
  · simpa [HasCell] using hindex
  · simp [value, hvalues]

/-- A rotated row lies in the matrix. -/
theorem rotate_lt (c : Claim) (hrows : 0 < c.rows) (row : Nat) (rotation : Int) : c.rotate row rotation < c.rows := by
  have hlow := Int.emod_nonneg (row + rotation) (by omega : (c.rows : Int) ≠ 0)
  have hhigh := Int.emod_lt_of_pos (row + rotation) (by omega : (0 : Int) < c.rows)
  unfold rotate
  omega

/-- A query reads the row of the matrix that is congruent to the one it names. -/
theorem rotate_eq_iff {rotation : Int} {target : Nat} (hinside : target < c.rows) :
    c.rotate row rotation = target ↔ (target : Int) ≡ row + rotation [ZMOD c.rows] := by
  have hself : (target : Int) % c.rows = target := Int.emod_eq_of_lt (by omega) (by omega)
  have hlow := Int.emod_nonneg (row + rotation) (by omega : (c.rows : Int) ≠ 0)
  rw [Int.ModEq, hself, rotate]
  omega

/-- A polynomial has no other value than the evaluated one. -/
theorem Evaluates.eq {e : Expr} {x : Felt} (h : c.Evaluates row e x) : x = c.eval row e := by
  induction h with
  | const => rfl
  | query hinside hmod hvalue =>
    rw [((cellValue_eq_ok ..).mp hvalue).2, ← (rotate_eq_iff hinside).mpr hmod]
    rfl
  | add _ _ iha ihb => rw [iha, ihb]; rfl
  | mul _ _ iha ihb => rw [iha, ihb]; rfl
  | neg _ iha => rw [iha]; rfl

/-- A polynomial whose columns exist has a value on every row. -/
theorem evaluates_eval {e : Expr} (hcolumns : ∀ column ∈ e.columns, c.HasColumn column) (hrows : 0 < c.rows) (row : Nat) :
    c.Evaluates row e (c.eval row e) := by
  induction e with
  | const x => exact .const x
  | query column rotation =>
    have hinside := c.rotate_lt hrows row rotation
    have hcell := hasCell_of_hasColumn (hcolumns column (List.mem_singleton_self _)) hinside
    exact .query hinside ((rotate_eq_iff hinside).mp rfl) ((cellValue_eq_ok ..).mpr ⟨hcell, rfl⟩)
  | add a b iha ihb =>
    rw [Expr.columns, List.forall_mem_append] at hcolumns
    exact .add (iha hcolumns.1) (ihb hcolumns.2)
  | mul a b iha ihb =>
    rw [Expr.columns, List.forall_mem_append] at hcolumns
    exact .mul (iha hcolumns.1) (ihb hcolumns.2)
  | neg a iha => exact .neg (iha hcolumns)

/-- Where its columns are present a polynomial has exactly the evaluated value. -/
theorem evaluates_iff {e : Expr} (hcolumns : ∀ column ∈ e.columns, c.HasColumn column) (hrow : row < c.rows) {x : Felt} :
    c.Evaluates row e x ↔ x = c.eval row e :=
  ⟨Evaluates.eq, fun h => h ▸ evaluates_eval hcolumns (by omega) row⟩

/-- Where its columns are present a lookup has exactly the evaluated inputs. -/
theorem inputsAre_iff {l : Lookup} (hcolumns : ∀ e ∈ l.inputs, ∀ column ∈ e.columns, c.HasColumn column) (hrow : row < c.rows)
    {tuple : List Felt} : c.InputsAre l row tuple ↔ tuple = l.inputs.map (c.eval row) :=
  forall₂_iff_eq_map fun e he _ => evaluates_iff (hcolumns e he) hrow

/-- The tuples that the set of a table contains are its rows. -/
theorem tableHas_iff {l : Lookup} (htable : ∀ column ∈ l.table, c.witness.matrix.HasColumn column) {tuple : List Felt} :
    c.TableHas l tuple ↔ (c.tableRows l).contains tuple = true := by
  rw [contains_tableRows, TableHas]
  refine exists_congr fun row => and_congr_right fun hrow => ?_
  refine forall₂_iff_eq_map fun column hcolumn x => ?_
  have hhas := htable column hcolumn
  have hkind : column.kind ≠ .publicInput := fun h => by simp [Matrix.HasColumn, h] at hhas
  have hcolumn : c.HasColumn column := by rwa [HasColumn, if_neg hkind]
  rw [cellValue_eq_ok, and_iff_right (hasCell_of_hasColumn hcolumn hrow)]

/-! ## Failures with their sites -/

/-- The failures of a gate on a row. -/
def gateFound (c : Claim) (i : Nat) (g : Gate) (row : Nat) : List (Site × Failure) :=
  g.polys.zipIdx.filterMap fun (e, index) =>
    if c.eval row e = 0 then none else some (.gate i row index, .gate g.name index row)

/-- The failures of a lookup. -/
def lookupFound (c : Claim) (i : Nat) (l : Lookup) : List (Site × Failure) :=
  (List.range c.rows).filterMap fun row =>
    if (c.tableRows l).contains (l.inputs.map (c.eval row)) then none else some (.lookup i row, .lookup l.name row)

/-- The failure of a copy constraint. -/
def copyFound (c : Claim) (i : Nat) (copy : Copy) : Option (Site × Failure) :=
  if c.value copy.left.column copy.left.row = c.value copy.right.column copy.right.row then none
  else some (.copy i, .copy (c.system.cellName copy.left ++ " != " ++ c.system.cellName copy.right) copy.left.row)

/-- All failures, in the order in which they are reported. -/
def found (c : Claim) : List (Site × Failure) :=
  c.system.gates.zipIdx.flatMap (fun (g, i) => (List.range c.rows).flatMap (c.gateFound i g)) ++
    c.system.lookups.zipIdx.flatMap (fun (l, i) => c.lookupFound i l) ++
    c.witness.copies.zipIdx.filterMap (fun (copy, i) => c.copyFound i copy)

/-- Something is found exactly where a condition does not hold. -/
theorem found_eq_some {p : Prop} [Decidable p] {x y : Site × Failure} :
    (if p then none else some x) = some y ↔ ¬p ∧ y = x := by
  rw [Option.ite_none_left_eq_some, Option.some.injEq, eq_comm (a := x)]

/-- A gate fails at the polynomials that do not vanish. -/
theorem mem_gateFound {i : Nat} {g : Gate} {x : Site × Failure} :
    x ∈ c.gateFound i g row ↔ ∃ e index, g.polys[index]? = some e ∧ c.eval row e ≠ 0 ∧
      x = (.gate i row index, .gate g.name index row) := by
  simp only [gateFound, List.mem_filterMap, Prod.exists, List.mem_zipIdx_iff_getElem?, found_eq_some, Ne]

/-- A lookup fails on the rows whose tuple is not in the table. -/
theorem mem_lookupFound {i : Nat} {l : Lookup} {x : Site × Failure} :
    x ∈ c.lookupFound i l ↔ ∃ row, row < c.rows ∧ ¬(c.tableRows l).contains (l.inputs.map (c.eval row)) = true ∧
      x = (.lookup i row, .lookup l.name row) := by
  simp only [lookupFound, List.mem_filterMap, List.mem_range, found_eq_some]

/-- A copy constraint fails when its cells hold different values. -/
theorem copyFound_eq_some {i : Nat} {copy : Copy} {x : Site × Failure} :
    c.copyFound i copy = some x ↔ c.value copy.left.column copy.left.row ≠ c.value copy.right.column copy.right.row ∧
      x = (.copy i,
        .copy (c.system.cellName copy.left ++ " != " ++ c.system.cellName copy.right) copy.left.row) :=
  found_eq_some

/-- The failures of sites are those of a proper claim's sites that fail. -/
theorem mem_found (hc : c.Proper) {site : Site} {failure : Failure} : (site, failure) ∈ c.found ↔ c.FailsAt site failure := by
  simp only [found, List.mem_append, List.mem_flatMap, List.mem_filterMap, Prod.exists, List.mem_zipIdx_iff_getElem?,
    List.mem_range]
  constructor
  · rintro ((⟨g, i, hgate, row, hrow, h⟩ | ⟨l, i, hlookup, h⟩) | ⟨copy, i, hcopy, h⟩)
    · obtain ⟨e, index, hpoly, hne, hx⟩ := mem_gateFound.mp h
      obtain ⟨rfl, rfl⟩ := Prod.mk.inj hx
      have hcolumns := hc.gates g (List.mem_of_getElem? hgate) e (List.mem_of_getElem? hpoly)
      exact .gate hgate hrow hpoly ((evaluates_iff hcolumns hrow).mpr rfl) hne
    · obtain ⟨row, hrow, hmissing, hx⟩ := mem_lookupFound.mp h
      obtain ⟨rfl, rfl⟩ := Prod.mk.inj hx
      have hl := List.mem_of_getElem? hlookup
      exact .lookup hlookup hrow ((inputsAre_iff (hc.lookups l hl) hrow).mpr rfl)
        fun hhas => hmissing ((tableHas_iff (hc.tables l hl)).mp hhas)
    · obtain ⟨hne, hx⟩ := copyFound_eq_some.mp h
      obtain ⟨rfl, rfl⟩ := Prod.mk.inj hx
      obtain ⟨hleft, hright⟩ := hc.copies copy (List.mem_of_getElem? hcopy)
      exact .copy hcopy ((cellValue_eq_ok ..).mpr ⟨hleft, rfl⟩) ((cellValue_eq_ok ..).mpr ⟨hright, rfl⟩) hne
  · intro h
    cases h with
    | @gate i row index g e x hgate hrow hpoly hvalue hne =>
      exact .inl (.inl ⟨g, i, hgate, row, hrow, mem_gateFound.mpr ⟨e, index, hpoly, hvalue.eq ▸ hne, rfl⟩⟩)
    | @lookup i row l tuple hlookup hrow hinputs hmissing =>
      have hl := List.mem_of_getElem? hlookup
      rw [tableHas_iff (hc.tables l hl), (inputsAre_iff (hc.lookups l hl) hrow).mp hinputs] at hmissing
      exact .inl (.inr ⟨l, i, hlookup, mem_lookupFound.mpr ⟨row, hrow, hmissing, rfl⟩⟩)
    | @copy i copy x y hcopy hleft hright hne =>
      rw [((cellValue_eq_ok ..).mp hleft).2, ((cellValue_eq_ok ..).mp hright).2] at hne
      exact .inr ⟨copy, i, hcopy, copyFound_eq_some.mpr ⟨hne, rfl⟩⟩

/-- The failures of a gate on a row come in the order of the polynomials. -/
theorem pairwise_gateFound (c : Claim) (i : Nat) (g : Gate) (row : Nat) :
    (c.gateFound i g row).Pairwise fun x y => x.1.Before y.1 := by
  rw [gateFound, List.pairwise_filterMap]
  refine (pairwise_zipIdx g.polys).imp fun {a b} hlt x hx y hy => ?_
  obtain ⟨-, rfl⟩ := found_eq_some.mp hx
  obtain ⟨-, rfl⟩ := found_eq_some.mp hy
  exact .inr ⟨rfl, .inr ⟨rfl, hlt⟩⟩

/-- The failures of a lookup come in the order of the rows. -/
theorem pairwise_lookupFound (c : Claim) (i : Nat) (l : Lookup) :
    (c.lookupFound i l).Pairwise fun x y => x.1.Before y.1 := by
  rw [lookupFound, List.pairwise_filterMap]
  refine List.pairwise_lt_range.imp fun {row row'} hlt x hx y hy => ?_
  obtain ⟨-, rfl⟩ := found_eq_some.mp hx
  obtain ⟨-, rfl⟩ := found_eq_some.mp hy
  exact .inr ⟨rfl, hlt⟩

/-- Failures are reported in the order of their sites. -/
theorem pairwise_found (c : Claim) : (c.found.map Prod.fst).Pairwise Site.Before := by
  rw [List.pairwise_map, found, List.pairwise_append, List.pairwise_append]
  refine ⟨⟨?gates, ?lookups, ?_⟩, ?copies, ?_⟩
  case gates =>
    rw [List.pairwise_flatMap]
    refine ⟨fun ⟨g, i⟩ _ => ?_, (pairwise_zipIdx _).imp fun {a b} hlt x hx y hy => ?_⟩
    · rw [List.pairwise_flatMap]
      refine ⟨fun row _ => pairwise_gateFound c i g row, List.pairwise_lt_range.imp fun {row row'} hlt x hx y hy => ?_⟩
      obtain ⟨e, index, -, -, rfl⟩ := mem_gateFound.mp hx
      obtain ⟨e', index', -, -, rfl⟩ := mem_gateFound.mp hy
      exact .inr ⟨rfl, .inl hlt⟩
    · obtain ⟨row, -, hx⟩ := List.mem_flatMap.mp hx
      obtain ⟨row', -, hy⟩ := List.mem_flatMap.mp hy
      obtain ⟨e, index, -, -, rfl⟩ := mem_gateFound.mp hx
      obtain ⟨e', index', -, -, rfl⟩ := mem_gateFound.mp hy
      exact .inl hlt
  case lookups =>
    rw [List.pairwise_flatMap]
    refine ⟨fun ⟨l, i⟩ _ => pairwise_lookupFound c i l, (pairwise_zipIdx _).imp fun {a b} hlt x hx y hy => ?_⟩
    obtain ⟨row, -, -, rfl⟩ := mem_lookupFound.mp hx
    obtain ⟨row', -, -, rfl⟩ := mem_lookupFound.mp hy
    exact .inl hlt
  case copies =>
    rw [List.pairwise_filterMap]
    refine (pairwise_zipIdx _).imp fun {a b} hlt x hx y hy => ?_
    obtain ⟨-, rfl⟩ := copyFound_eq_some.mp hx
    obtain ⟨-, rfl⟩ := copyFound_eq_some.mp hy
    exact hlt
  -- Gates come before lookups, and both before copy constraints.
  · intro x hx y hy
    obtain ⟨⟨g, i⟩, -, hx⟩ := List.mem_flatMap.mp hx
    obtain ⟨row, -, hx⟩ := List.mem_flatMap.mp hx
    obtain ⟨e, index, -, -, rfl⟩ := mem_gateFound.mp hx
    obtain ⟨⟨l, i'⟩, -, hy⟩ := List.mem_flatMap.mp hy
    obtain ⟨row', -, -, rfl⟩ := mem_lookupFound.mp hy
    trivial
  · intro x hx y hy
    obtain ⟨⟨copy, i'⟩, -, hy⟩ := List.mem_filterMap.mp hy
    obtain ⟨-, rfl⟩ := copyFound_eq_some.mp hy
    rcases List.mem_append.mp hx with hx | hx
    · obtain ⟨⟨g, i⟩, -, hx⟩ := List.mem_flatMap.mp hx
      obtain ⟨row, -, hx⟩ := List.mem_flatMap.mp hx
      obtain ⟨e, index, -, -, rfl⟩ := mem_gateFound.mp hx
      trivial
    · obtain ⟨⟨l, i⟩, -, hx⟩ := List.mem_flatMap.mp hx
      obtain ⟨row, -, -, rfl⟩ := mem_lookupFound.mp hx
      trivial

/-- Without their sites the failures of a gate are those of the check. -/
theorem map_snd_gateFound (c : Claim) (i : Nat) (g : Gate) :
    ((List.range c.rows).flatMap (c.gateFound i g)).map Prod.snd = c.gateFailures g := by
  rw [List.map_flatMap]
  refine List.flatMap_congr fun row _ => ?_
  rw [gateFound, List.map_filterMap]
  refine List.filterMap_congr fun ⟨e, index⟩ _ => ?_
  exact apply_ite (Option.map Prod.snd) ..

/-- Without their sites the failures of a lookup are those of the check. -/
theorem map_snd_lookupFound (c : Claim) (i : Nat) (l : Lookup) :
    (c.lookupFound i l).map Prod.snd = c.lookupFailures l := by
  rw [lookupFound, List.map_filterMap]
  refine List.filterMap_congr fun row _ => ?_
  exact apply_ite (Option.map Prod.snd) ..

/-- Without its site the failure of a copy constraint is that of the check. -/
theorem copyFailure_eq_found {copy : Copy} (hcells : c.HasCell copy.left ∧ c.HasCell copy.right) (i : Nat) :
    c.copyFailure copy = .ok ((c.copyFound i copy).map Prod.snd) := by
  unfold copyFailure copyFound
  rw [(c.cellValue_eq_ok copy.left _).mpr ⟨hcells.1, rfl⟩, (c.cellValue_eq_ok copy.right _).mpr ⟨hcells.2, rfl⟩]
  by_cases hsame : c.value copy.left.column copy.left.row = c.value copy.right.column copy.right.row
  · rw [if_pos hsame]
    exact if_pos hsame
  · rw [if_neg hsame]
    exact if_neg hsame

/-- A proper claim's check succeeds, with the failures of its sites. -/
theorem failures_eq_found (hc : c.Proper) : c.failures = .ok (c.found.map Prod.snd) := by
  have hcopies : List.Forall₂ (fun copy f => c.copyFailure copy = .ok f) c.witness.copies
      (c.witness.copies.zipIdx.map fun (copy, i) => (c.copyFound i copy).map Prod.snd) := by
    nth_rewrite 1 [← List.zipIdx_map_fst 0 c.witness.copies]
    rw [List.forall₂_map_left_iff, List.forall₂_map_right_iff, List.forall₂_same]
    rintro ⟨copy, i⟩ hmem
    exact copyFailure_eq_found (hc.copies copy (List.mem_of_getElem? (List.mem_zipIdx_iff_getElem?.mp hmem))) i
  rw [failures_eq_ok]
  refine ⟨hc.tables, _, hcopies, ?_⟩
  rw [found, List.map_append, List.map_append, List.map_flatMap, List.map_flatMap, List.map_filterMap, List.reduceOption,
    List.filterMap_map]
  congr 1
  congr 1
  · simp only [map_snd_gateFound]
    exact flatMap_zipIdx ..
  · simp only [map_snd_lookupFound]
    exact flatMap_zipIdx ..

/-- Nothing fails exactly when the system is satisfied. -/
theorem found_eq_nil (hc : c.Proper) : c.found = [] ↔ c.Satisfied := by
  rw [List.eq_nil_iff_forall_not_mem]
  constructor
  · intro h
    have hnone : ∀ {site failure}, ¬c.FailsAt site failure := fun hfails => h _ ((mem_found hc).mpr hfails)
    refine ⟨fun g hg row hrow e he => ?_, fun l hl row hrow => ?_, fun copy hcopy => ?_⟩
    · obtain ⟨i, hgate⟩ := List.mem_iff_getElem?.mp hg
      obtain ⟨index, hpoly⟩ := List.mem_iff_getElem?.mp he
      have hvalue := (evaluates_iff (hc.gates g hg e he) hrow).mpr rfl
      by_cases hzero : c.eval row e = 0
      · exact hzero ▸ hvalue
      · exact absurd (.gate hgate hrow hpoly hvalue hzero) hnone
    · obtain ⟨i, hlookup⟩ := List.mem_iff_getElem?.mp hl
      have hinputs := (inputsAre_iff (hc.lookups l hl) hrow).mpr rfl
      by_cases hhas : c.TableHas l (l.inputs.map (c.eval row))
      · exact ⟨_, hinputs, hhas⟩
      · exact absurd (.lookup hlookup hrow hinputs hhas) hnone
    · obtain ⟨i, hcopy'⟩ := List.mem_iff_getElem?.mp hcopy
      have hleft := (c.cellValue_eq_ok copy.left _).mpr ⟨(hc.copies copy hcopy).1, rfl⟩
      have hright := (c.cellValue_eq_ok copy.right _).mpr ⟨(hc.copies copy hcopy).2, rfl⟩
      by_cases hsame : c.value copy.left.column copy.left.row = c.value copy.right.column copy.right.row
      · exact ⟨_, hleft, hsame ▸ hright⟩
      · exact absurd (.copy hcopy' hleft hright hsame) hnone
  · rintro hsat ⟨site, failure⟩ hmem
    cases (mem_found hc).mp hmem with
    | gate hgate hrow hpoly hvalue hne =>
      have hzero := hsat.gates _ (List.mem_of_getElem? hgate) _ hrow _ (List.mem_of_getElem? hpoly)
      exact hne (hvalue.eq.trans hzero.eq.symm)
    | lookup hlookup hrow hinputs hmissing =>
      have hl := List.mem_of_getElem? hlookup
      obtain ⟨tuple, hinputs', hhas⟩ := hsat.lookups _ hl _ hrow
      rw [inputsAre_iff (hc.lookups _ hl) hrow] at hinputs hinputs'
      exact hmissing (hinputs.trans hinputs'.symm ▸ hhas)
    | copy hcopy hleft hright hne =>
      obtain ⟨x, hleft', hright'⟩ := hsat.copies _ (List.mem_of_getElem? hcopy)
      rw [hleft', Except.ok.injEq] at hleft
      rw [hright', Except.ok.injEq] at hright
      exact hne (hleft.symm.trans hright)

/-- A check is exact. Under every schedule it reports the failures of the sites that fail, each once and in the order of the
sites, and so none exactly when the system is satisfied. -/
theorem failures_exact {sys : System} {w : Witness} {instances : List (List Felt)} (hmake : make sys w instances = .ok c)
    (hc : c.Proper) :
    (∃ found : List (Site × Failure),
      c.failures = .ok (found.map Prod.snd) ∧
      (∀ s : Schedule, s.Complete c → c.failuresBy s = .ok (found.map Prod.snd)) ∧
      (found.map Prod.fst).Pairwise Site.Before ∧
      (∀ site failure, (site, failure) ∈ found ↔ c.FailsAt site failure) ∧
      (c.failures = .ok [] ↔ c.Satisfied)) ∧
    ∀ index values, instances[index]? = some values →
      ∀ row, c.cellValue ⟨⟨.publicInput, index⟩, row⟩ = .ok (values.getD row 0) := by
  have hfailures := failures_eq_found hc
  refine ⟨⟨c.found, hfailures, fun s hs => ?_, c.pairwise_found, fun site failure => mem_found hc, ?_⟩,
    fun index values hvalues row => cellValue_publicInput hmake hvalues row⟩
  · rw [c.failuresBy_eq hs, hfailures]
  · rw [hfailures, Except.ok.injEq, List.map_eq_nil_iff, found_eq_nil hc]

/-- Two rows under a gate that reads three rows back and five ahead, a lookup, and a copy of a public value not supplied. -/
def around : Claim where
  system :=
    { adviceCount := 1, fixedCount := 1, instanceCount := 1, equality := [⟨.advice, 0⟩, ⟨.publicInput, 0⟩], labels := [],
      gates := [⟨"around", [.add (.query ⟨.advice, 0⟩ (-3)) (.neg (.query ⟨.advice, 0⟩ 5))]⟩],
      lookups := [⟨"found", [(.query ⟨.advice, 0⟩ 0, ⟨.fixed, 0⟩)]⟩] }
  witness :=
    { matrix := { rows := 2, advice := #[#v[.ofNat 3, .ofNat 4]], fixed := #[#v[.ofNat 3, 0]] },
      copies := [⟨⟨⟨.advice, 0⟩, 0⟩, ⟨⟨.publicInput, 0⟩, 1⟩⟩] }
  instances := #[#[.ofNat 3]]

/-- A claim whose gate reads around the end of the matrix, with its failures found. -/
theorem failures_exact_around : make around.system around.witness [[.ofNat 3]] = .ok around ∧ around.Proper ∧
    (∃ found : List (Site × Failure),
      around.failures = .ok (found.map Prod.snd) ∧
      (∀ s : Schedule, s.Complete around → around.failuresBy s = .ok (found.map Prod.snd)) ∧
      (found.map Prod.fst).Pairwise Site.Before ∧
      (∀ site failure, (site, failure) ∈ found ↔ around.FailsAt site failure) ∧
      (around.failures = .ok [] ↔ around.Satisfied)) ∧
    ∀ row, around.cellValue ⟨⟨.publicInput, 0⟩, row⟩ = .ok ([Felt.ofNat 3].getD row 0) := by
  have hmake : make around.system around.witness [[.ofNat 3]] = .ok around := rfl
  have hproper : around.Proper := by
    constructor
    · simp [around, Expr.columns, HasColumn, Matrix.HasColumn]
    · simp [around, Lookup.inputs, Expr.columns, HasColumn, Matrix.HasColumn]
    · simp [around, HasTables, Lookup.table, Matrix.HasColumn]
    · simp [around, HasCell, rows, Matrix.HasColumn]
  obtain ⟨hfound, hpublic⟩ := failures_exact hmake hproper
  exact ⟨hmake, hproper, hfound, hpublic 0 [.ofNat 3] rfl⟩

end Claim

end ScriptCircuit
