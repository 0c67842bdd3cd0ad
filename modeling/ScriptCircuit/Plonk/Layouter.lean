import ScriptCircuit.Plonk.Region

/-!
# The layouter

The floor plan of a circuit, in two phases. First regions and tables are planned: regions follow each other from row 0,
tables start at row 0 of their own columns. Then the matrix is allocated, with the least power of two of rows that holds
them all, and regions and tables are handed out and filled. Taking the witness ends the second phase.
-/

namespace ScriptCircuit

/-- A region before allocation. -/
structure PlannedRegion where
  name : String
  start : Nat
  height : Nat
deriving DecidableEq, Repr

/-- The state of a layouter. -/
structure Layouter where
  regions : List PlannedRegion
  /-- the row the next region starts at -/
  nextRow : Nat
  /-- the height of the tallest table -/
  tableRows : Nat
  /-- the witness, between allocation and the end -/
  witness? : Option Witness
deriving DecidableEq

namespace Layouter

/-- The layouter before any plan. -/
def empty : Layouter where
  regions := []
  nextRow := 0
  tableRows := 0
  witness? := none

instance : EmptyCollection Layouter := ⟨empty⟩

/-- The second phase has begun. -/
def allocated (l : Layouter) : Bool :=
  l.witness?.isSome

/-- The least power of two that is not below a number. Doubling a machine word reaches it for numbers up to 2 ^ 63 only, so the
success of an allocation is stated for no more rows. -/
def powerOfTwoFrom (n : Nat) : Nat :=
  if n ≤ 1 then 1 else 1 <<< ((n - 1).log2 + 1)

/-- The height of the matrix for the present plan. -/
def rows (l : Layouter) : Nat :=
  powerOfTwoFrom (max l.nextRow l.tableRows)

/-- The witness at work. -/
def witness (l : Layouter) : Except Error Witness :=
  match l.witness? with
  | some w => pure w
  | none => throw .notAllocated

/-- Plans a region and gives its number. -/
def planRegion (l : Layouter) (name : String) (height : Nat) : Except Error (Nat × Layouter) :=
  if l.allocated then throw (.regionAfterAllocation name)
  else pure (l.regions.length, { l with
    regions := l.regions ++ [⟨name, l.nextRow, height⟩]
    nextRow := (l.nextRow + height) % UInt64.size })

/-- Plans a table. -/
def planTable (l : Layouter) (name : String) (rows : Nat) : Except Error Layouter :=
  if l.allocated then throw (.tableAfterAllocation name)
  else pure { l with tableRows := max l.tableRows rows }

/-- Allocates the matrix with the present columns of a system. -/
def allocate (l : Layouter) (sys : System) : Except Error Layouter :=
  if l.allocated then throw .alreadyAllocated
  else pure { l with witness? := some ⟨.zero sys l.rows, []⟩ }

/-- Hands out a region. -/
def region (l : Layouter) (index : Nat) : Except Error Region :=
  match l.regions[index]? with
  | none => throw (.unknownRegion index)
  | some planned => do
    discard l.witness
    return ⟨planned.name, planned.start, planned.height, []⟩

/-- Works on a region; what was done before a failure is kept. -/
def fill {α : Type} (l : Layouter) (r : Region) (work : Fill α) : Except Error α × Region × Layouter :=
  match l with
  | { witness? := none, .. } => (throw .notAllocated, r, l)
  | { regions, nextRow, tableRows, witness? := some ⟨matrix, copies⟩ } =>
    match work.run ⟨r, matrix⟩ with
    | (result, ⟨r, matrix⟩) => (result, r, { regions, nextRow, tableRows, witness? := some ⟨matrix, copies⟩ })

/-- Writes the cells of a table, column, row and value, in order; what was written before a failure is kept. -/
def fillTable (l : Layouter) (name : String) (cells : List (Column × Nat × Felt)) : Except Error Unit × Layouter :=
  match l with
  | { witness? := none, .. } => (throw .notAllocated, l)
  | { regions, nextRow, tableRows, witness? := some ⟨matrix, copies⟩ } =>
    let (result, matrix) := writeCells tableRows cells matrix
    (result, { regions, nextRow, tableRows, witness? := some ⟨matrix, copies⟩ })
where
  /-- Writes cells whose rows lie below the planned height. -/
  writeCells (planned : Nat) : List (Column × Nat × Felt) → Matrix → Except Error Unit × Matrix
    | [], m => (pure (), m)
    | (c, row, x) :: rest, m =>
      if planned ≤ row then (throw (.tableRow name row planned), m)
      else
        match m.checkCell c row with
        | .ok _ => writeCells planned rest (m.write c row x)
        | .error e => (throw e, m)

/-- Adds copy constraints to the witness, all or none. -/
def addCopies (l : Layouter) (sys : System) (copies : List Copy) : Except Error Layouter := do
  let w ← l.witness
  let w ← w.addCopies sys copies
  return { l with witness? := some w }

/-- Adds the copy constraints of a region, which holds none afterwards even if they are refused. -/
def commit (l : Layouter) (sys : System) (r : Region) : Except Error Layouter × Region :=
  (l.addCopies sys r.copies, { r with copies := [] })

/-- Demands that two cells hold the same value. -/
def constrainEqual (l : Layouter) (sys : System) (left right : Cell) : Except Error Layouter :=
  l.addCopies sys [⟨left, right⟩]

/-- Demands that a cell holds a public value. -/
def constrainInstance (l : Layouter) (sys : System) (c : Cell) (column : Column) (row : Nat) : Except Error Layouter :=
  if column.kind ≠ .publicInput then throw (.notInstance column)
  else l.constrainEqual sys c ⟨column, row⟩

/-- Takes the witness and forgets it. -/
def take (l : Layouter) : Except Error (Witness × Layouter) := do
  let w ← l.witness
  return (w, { l with witness? := none })

end Layouter

/-- Synthesis: work on a layouter, given up as a whole at the first failure. -/
abbrev Synthesis := StateT Layouter (Except Error)

namespace Synthesis

/-- Plans a region. -/
def planRegion (name : String) (height : Nat) : Synthesis Nat :=
  fun l => l.planRegion name height

/-- Plans a table. -/
def planTable (name : String) (rows : Nat) : Synthesis Unit :=
  fun l => return ((), ← l.planTable name rows)

/-- Allocates the matrix. -/
def allocate (sys : System) : Synthesis Unit :=
  fun l => return ((), ← l.allocate sys)

/-- Writes a table. -/
def fillTable (name : String) (cells : List (Column × Nat × Felt)) : Synthesis Unit :=
  fun l =>
    match l.fillTable name cells with
    | (.ok _, l) => pure ((), l)
    | (.error e, _) => throw e

/-- Hands out a region. -/
def region (index : Nat) : Synthesis Region :=
  fun l =>
    match l.region index with
    | .ok r => pure (r, l)
    | .error e => throw e

/-- Works on a region. -/
def fill {α : Type} (r : Region) (work : Fill α) : Synthesis (α × Region) :=
  fun l =>
    match l.fill r work with
    | (.ok x, r, l) => pure ((x, r), l)
    | (.error e, _) => throw e

/-- Adds the copy constraints of a region. -/
def commit (sys : System) (r : Region) : Synthesis Unit :=
  fun l =>
    match l.commit sys r with
    | (.ok l, _) => pure ((), l)
    | (.error e, _) => throw e

/-- Demands that two cells hold the same value. -/
def constrainEqual (sys : System) (left right : Cell) : Synthesis Unit :=
  fun l => return ((), ← l.constrainEqual sys left right)

/-- Demands that a cell holds a public value. -/
def constrainInstance (sys : System) (c : Cell) (column : Column) (row : Nat) : Synthesis Unit :=
  fun l => return ((), ← l.constrainInstance sys c column row)

/-- Takes the witness. -/
def take : Synthesis Witness :=
  fun l => l.take

end Synthesis

end ScriptCircuit
