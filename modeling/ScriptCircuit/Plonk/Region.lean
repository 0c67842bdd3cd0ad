import ScriptCircuit.Plonk.Matrix

/-!
# Regions

A region is a block of rows of the matrix. What is written into it goes by offsets from its first row, and the copy
constraints made in it are kept with it until it is committed. A call that fails keeps what it did before it failed.
-/

namespace ScriptCircuit

/-- A block of rows, with the copy constraints made in it. -/
structure Region where
  name : String
  start : Nat
  height : Nat
  copies : List Copy
deriving DecidableEq

/-- The row of an offset. Rows are numbered by words of 64 bits. -/
def Region.row (r : Region) (offset : Nat) : Nat :=
  (r.start + offset) % UInt64.size

/-- A region at work on the matrix. -/
structure Filling where
  region : Region
  matrix : Matrix
deriving DecidableEq

/-- Work on a region, which may fail and keeps what was done before. -/
abbrev Fill := ExceptT Error (StateM Filling)

namespace Fill

/-- Demands a condition that the region decides. -/
def require (check : Region → Except Error Unit) : Fill Unit :=
  fun s => (check s.region, s)

/-- The row of an offset inside the region. -/
def place (offset : Nat) : Fill Nat :=
  fun s =>
    if s.region.height ≤ offset then (throw (.offsetOutside s.region.name offset s.region.height), s)
    else (pure (s.region.row offset), s)

/-- Writes a cell of the matrix. -/
def write (c : Column) (row : Nat) (x : Felt) : Fill Unit :=
  fun s =>
    match s.matrix.checkCell c row with
    | .ok _ => (pure (), { s with matrix := s.matrix.write c row x })
    | .error e => (throw e, s)

/-- Writes at an offset of a column. -/
def assign (c : Column) (offset : Nat) (x : Felt) : Fill AssignedCell := do
  let row ← place offset
  write c row x
  return ⟨⟨c, row⟩, x⟩

/-- Writes at an offset of an advice column. -/
def assignAdvice (c : Column) (offset : Nat) (x : Felt) : Fill AssignedCell := do
  require fun r => if c.kind = .advice then pure () else throw (.notAdvice r.name c)
  assign c offset x

/-- Writes at an offset of a fixed column. -/
def assignFixed (c : Column) (offset : Nat) (x : Felt) : Fill AssignedCell := do
  require fun r => if c.kind = .fixed then pure () else throw (.notFixed r.name c)
  assign c offset x

/-- Switches a selector on at an offset. -/
def enable (selector : Column) (offset : Nat) : Fill Unit :=
  discard (assign selector offset 1)

/-- Demands that two cells hold the same value. -/
def constrainEqual (sys : System) (left right : Cell) : Fill Unit :=
  fun s =>
    match sys.checkCopy ⟨left, right⟩ with
    | .ok _ => (pure (), { s with region.copies := s.region.copies ++ [⟨left, right⟩] })
    | .error e => (throw e, s)

/-- Writes the value of a cell at an offset of an advice column and demands that both hold the same value. -/
def copyAdvice (sys : System) (source : AssignedCell) (c : Column) (offset : Nat) : Fill AssignedCell := do
  let copied ← assignAdvice c offset source.value
  constrainEqual sys source.cell copied.cell
  return copied

end Fill

end ScriptCircuit
