import ScriptCircuit.Plonk.System

/-!
# The matrix

The advice and fixed columns of a witness, all of one height, and the copy constraints between cells. Instance columns are
not part of the matrix: their values are supplied when a witness is checked.
-/

namespace ScriptCircuit

/-- The demand that two cells hold the same value. -/
structure Copy where
  left : Cell
  right : Cell
deriving DecidableEq, Repr

/-- The text of a copy constraint. -/
def Copy.text (c : Copy) : String :=
  s!"{c.left.text}={c.right.text}"

/-- A cell together with the value written into it. -/
structure AssignedCell where
  cell : Cell
  value : Felt
deriving DecidableEq

/-- The text of an assigned cell. -/
def AssignedCell.text (c : AssignedCell) : String :=
  s!"{c.cell.text}={c.value.text}"

/-- The advice and fixed columns. -/
structure Matrix where
  rows : Nat
  advice : Array (Vector Felt rows)
  fixed : Array (Vector Felt rows)
deriving DecidableEq

namespace Matrix

/-- The zero matrix with the columns of a system. -/
def zero (sys : System) (rows : Nat) : Matrix where
  rows := rows
  advice := .replicate sys.adviceCount (.replicate rows 0)
  fixed := .replicate sys.fixedCount (.replicate rows 0)

/-- The values of a column, if the matrix has it. -/
def column? (m : Matrix) (c : Column) : Option (Vector Felt m.rows) :=
  match c.kind with
  | .advice => m.advice[c.index]?
  | .fixed => m.fixed[c.index]?
  | .publicInput => none

/-- The values of a column. -/
def column (m : Matrix) (c : Column) : Except Error (Vector Felt m.rows) :=
  if c.kind = .publicInput then throw .instanceNotAssigned
  else
    match m.column? c with
    | some values => pure values
    | none => throw (.unknownColumn c)

/-- Demands that the matrix has a row, and then that it has a column. -/
def checkCell (m : Matrix) (c : Column) (row : Nat) : Except Error Unit := do
  if m.rows ≤ row then throw (.rowOutside row m.rows)
  discard (m.column c)

/-- The value of a cell, zero outside the matrix. -/
def value (m : Matrix) (c : Column) (row : Nat) : Felt :=
  match c.kind with
  | .advice =>
    match m.advice[c.index]? with
    | some values => values[row]?.getD 0
    | none => 0
  | .fixed =>
    match m.fixed[c.index]? with
    | some values => values[row]?.getD 0
    | none => 0
  | .publicInput => 0

/-- The value of a cell of the matrix. -/
def get (m : Matrix) (c : Column) (row : Nat) : Except Error Felt := do
  m.checkCell c row
  return m.value c row

/-- Writes a cell; outside the matrix nothing changes. -/
def write (m : Matrix) (c : Column) (row : Nat) (x : Felt) : Matrix :=
  match c.kind with
  | .advice => { m with advice := m.advice.modify c.index (·.setIfInBounds row x) }
  | .fixed => { m with fixed := m.fixed.modify c.index (·.setIfInBounds row x) }
  | .publicInput => m

/-- Writes a cell of the matrix. -/
def set (m : Matrix) (c : Column) (row : Nat) (x : Felt) : Except Error Matrix :=
  match m.checkCell c row with
  | .ok _ => pure (m.write c row x)
  | .error e => throw e

end Matrix

/-- A matrix with its copy constraints. -/
structure Witness where
  matrix : Matrix
  copies : List Copy
deriving DecidableEq

/-- Demands that the column of a cell takes part in copy constraints. -/
def System.checkEquality (sys : System) (c : Cell) : Except Error Unit :=
  if sys.equalityEnabled c.column then pure ()
  else throw (.notEqualityEnabled (sys.columnName c.column))

/-- Demands that both columns of a copy constraint take part in copy constraints. -/
def System.checkCopy (sys : System) (c : Copy) : Except Error Unit := do
  sys.checkEquality c.left
  sys.checkEquality c.right

/-- Adds copy constraints, all or, if one is refused, none. -/
def Witness.addCopies (w : Witness) (sys : System) (copies : List Copy) : Except Error Witness := do
  copies.forM sys.checkCopy
  return { w with copies := w.copies ++ copies }

end ScriptCircuit
