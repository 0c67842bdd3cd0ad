import ScriptCircuit.Plonk.Layouter
import Std.Data.HashSet

/-!
# Checking a witness

A witness and the public values satisfy a system when every polynomial of every gate vanishes on every row, the inputs of
every lookup form a row of its table on every row, and the cells of every copy constraint agree. Rotations wrap around the
matrix. Checking lists all violations: gates first, row by row, then lookups, then copy constraints.
-/

namespace ScriptCircuit

/-- A violated constraint. -/
inductive Failure where
  /-- a polynomial of a gate does not vanish on a row -/
  | gate (name : String) (index row : Nat)
  /-- the inputs of a lookup are no row of its table -/
  | lookup (name : String) (row : Nat)
  /-- two cells that must agree do not; `cells` names them and `row` is that of the first -/
  | copy (cells : String) (row : Nat)
deriving DecidableEq, Repr

/-- The text of a failure. -/
def Failure.text : Failure → String
  | gate name index row => s!"constraint {index} of gate '{name}' not satisfied at row {row}"
  | lookup name row => s!"lookup '{name}' input not in table at row {row}"
  | copy cells _ => s!"copy constraint violated: {cells}"

/-- What is checked: a system, a witness and the public values of every instance column. -/
structure Claim where
  system : System
  witness : Witness
  instances : Array (Array Felt)

namespace Claim

/-- The claim of a witness, which needs a column of public values for every instance column, none longer than the matrix. -/
def make (system : System) (witness : Witness) (instances : List (List Felt)) : Except Error Claim :=
  if instances.length ≠ system.instanceCount then
    throw (.instanceCount system.instanceCount instances.length)
  else if instances.any fun values => witness.matrix.rows < values.length then throw .instanceTooLong
  else pure ⟨system, witness, (instances.map List.toArray).toArray⟩

/-- The height of the matrix. -/
def rows (c : Claim) : Nat :=
  c.witness.matrix.rows

/-- The value of a cell; public values that were not supplied are zero. -/
def value (c : Claim) (column : Column) (row : Nat) : Felt :=
  if column.kind = .publicInput then
    match c.instances[column.index]? with
    | some values => values.getD row 0
    | none => 0
  else c.witness.matrix.value column row

/-- The row a query reads: `rotation` rows behind `row`, around the matrix. -/
def rotate (c : Claim) (row : Nat) (rotation : Int) : Nat :=
  ((row + rotation) % (c.rows : Int)).toNat

/-- The value of a polynomial on a row. -/
def eval (c : Claim) (row : Nat) (e : Expr) : Felt :=
  e.eval fun column rotation => c.value column (c.rotate row rotation)

/-- The failures of a gate, row by row and within a row by the number of the polynomial. -/
def gateFailures (c : Claim) (g : Gate) : List Failure :=
  let polys := g.polys.zipIdx
  (List.range c.rows).flatMap fun row =>
    polys.filterMap fun (e, index) =>
      if c.eval row e = 0 then none else some (.gate g.name index row)

/-- The rows of a table, as a set of tuples. -/
def tableRows (c : Claim) (l : Lookup) : Std.HashSet (List Felt) :=
  (List.range c.rows).foldl (fun rows row => rows.insert (l.table.map fun column => c.value column row)) ∅

/-- The failures of a lookup, row by row. -/
def lookupFailures (c : Claim) (l : Lookup) : List Failure :=
  let table := c.tableRows l
  (List.range c.rows).filterMap fun row =>
    if table.contains (l.inputs.map (c.eval row)) then none else some (.lookup l.name row)

/-- The value of a cell that a copy constraint names, which must exist. -/
def cellValue (c : Claim) (cell : Cell) : Except Error Felt :=
  if cell.column.kind = .publicInput then
    if cell.column.index < c.instances.size then pure (c.value cell.column cell.row)
    else throw (.instanceIndex cell.column.index c.instances.size)
  else c.witness.matrix.get cell.column cell.row

/-- The failure of a copy constraint, if its cells differ. Where neither cell exists, the right one is reported. -/
def copyFailure (c : Claim) (copy : Copy) : Except Error (Option Failure) := do
  let right ← c.cellValue copy.right
  let left ← c.cellValue copy.left
  if left = right then return none
  return some (.copy (c.system.cellName copy.left ++ " != " ++ c.system.cellName copy.right) copy.left.row)

/-- All failures. It is an error that a table or a copy constraint names a cell that does not exist. -/
def failures (c : Claim) : Except Error (List Failure) := do
  let gates := c.system.gates.flatMap c.gateFailures
  let lookups ← c.system.lookups.mapM fun l => do
    l.table.forM fun column => discard (c.witness.matrix.column column)
    return c.lookupFailures l
  let copies ← c.witness.copies.mapM c.copyFailure
  return gates ++ lookups.flatten ++ copies.reduceOption

/-- Demands that there are no failures. -/
def requireSatisfied (c : Claim) : Except Error Unit := do
  let failures ← c.failures
  if failures.isEmpty then return
  throw (.unsatisfied failures.length ((failures.take 10).map Failure.text))

end Claim

end ScriptCircuit
