import ScriptCircuit.Plonk.Expr

/-!
# Constraint systems

The shape of a circuit, before any witness: how many columns of each kind there are, which of them take part in copy
constraints, what they are called, which polynomials vanish on every row and which tuples appear in tables.
-/

namespace ScriptCircuit

/-- Polynomials that vanish on every row. -/
structure Gate where
  name : String
  polys : List Expr
deriving DecidableEq

/-- On every row the tuple of the inputs is a row of the table columns. -/
structure Lookup where
  name : String
  entries : List (Expr × Column)
deriving DecidableEq

namespace Lookup

/-- The polynomials looked up. -/
def inputs (l : Lookup) : List Expr :=
  l.entries.map (·.1)

/-- The columns of the table. -/
def table (l : Lookup) : List Column :=
  l.entries.map (·.2)

end Lookup

/-- A constraint system. -/
structure System where
  adviceCount : Nat
  fixedCount : Nat
  instanceCount : Nat
  /-- the columns that take part in copy constraints -/
  equality : List Column
  /-- the names of columns, a later one in front of an earlier one -/
  labels : List (Column × String)
  gates : List Gate
  lookups : List Lookup
deriving DecidableEq

namespace System

/-- The system without columns. -/
def empty : System where
  adviceCount := 0
  fixedCount := 0
  instanceCount := 0
  equality := []
  labels := []
  gates := []
  lookups := []

instance : EmptyCollection System := ⟨empty⟩

/-- The number of columns of a kind. -/
def count (sys : System) : ColumnKind → Nat
  | .advice => sys.adviceCount
  | .fixed => sys.fixedCount
  | .publicInput => sys.instanceCount

/-- The columns of a kind, in order. -/
def columns (sys : System) (kind : ColumnKind) : List Column :=
  (List.range (sys.count kind)).map fun index => ⟨kind, index⟩

/-- All columns: advice, fixed, instance. -/
def allColumns (sys : System) : List Column :=
  sys.columns .advice ++ sys.columns .fixed ++ sys.columns .publicInput

/-- The columns that may take part in copy constraints. -/
def equalityEnabled (sys : System) (c : Column) : Bool :=
  sys.equality.contains c

/-- The name given to a column. -/
def label? (sys : System) (c : Column) : Option String :=
  sys.labels.lookup c

/-- The name given to a column, or else its text. -/
def columnName (sys : System) (c : Column) : String :=
  (sys.label? c).getD c.text

/-- The text of a cell with the name of its column. -/
def cellName (sys : System) (c : Cell) : String :=
  s!"{sys.columnName c.column}@{c.row}"

/-- Adds a column of a kind. -/
def addColumn (sys : System) (kind : ColumnKind) : Column × System :=
  (⟨kind, sys.count kind⟩,
    match kind with
    | .advice => { sys with adviceCount := sys.adviceCount + 1 }
    | .fixed => { sys with fixedCount := sys.fixedCount + 1 }
    | .publicInput => { sys with instanceCount := sys.instanceCount + 1 })

/-- Lets a column take part in copy constraints. -/
def enableEquality (sys : System) (c : Column) : System :=
  { sys with equality := sys.equality.insert c }

/-- Names a column. -/
def setLabel (sys : System) (c : Column) (name : String) : System :=
  { sys with labels := (c, name) :: sys.labels }

/-- Adds gates behind the present ones. -/
def addGates (sys : System) (gates : List Gate) : System :=
  { sys with gates := sys.gates ++ gates }

/-- Adds lookups behind the present ones. -/
def addLookups (sys : System) (lookups : List Lookup) : System :=
  { sys with lookups := sys.lookups ++ lookups }

/-- Adds a gate, which must have a polynomial. -/
def addGate (sys : System) (g : Gate) : Except Error System :=
  if g.polys.isEmpty then throw (.emptyGate g.name) else pure (sys.addGates [g])

/-- Adds a lookup, which must have an input. -/
def addLookup (sys : System) (l : Lookup) : Except Error System :=
  if l.entries.isEmpty then throw (.emptyLookup l.name) else pure (sys.addLookups [l])

/-- The largest degree of a gate polynomial, a lookup input counting one more. -/
def maxDegree (sys : System) : Nat :=
  let gates := sys.gates.flatMap fun g => g.polys.map Expr.degree
  let lookups := sys.lookups.flatMap fun l => l.inputs.map fun e => e.degree + 1
  (gates ++ lookups).foldl max 0

end System

/-- Configuration: a computation that declares parts of a system. -/
abbrev Configure := StateM System

namespace Configure

/-- Declares a column. -/
def column (kind : ColumnKind) : Configure Column :=
  fun sys => sys.addColumn kind

/-- Declares an advice column. -/
def advice : Configure Column :=
  column .advice

/-- Declares an advice column with a name. -/
def namedAdvice (name : String) : Configure Column := do
  let c ← advice
  modify (·.setLabel c name)
  return c

/-- Declares an advice column with a name that takes part in copy constraints. -/
def linkedAdvice (name : String) : Configure Column := do
  let c ← namedAdvice name
  modify (·.enableEquality c)
  return c

/-- Declares a fixed column: a selector or a column of a table. -/
def fixed : Configure Column :=
  column .fixed

/-- Declares `n` advice columns that follow each other. -/
def adviceBlock (n : Nat) : Configure (Vector Column n) :=
  fun sys => (.ofFn fun i => ⟨.advice, sys.adviceCount + i.val⟩, { sys with adviceCount := sys.adviceCount + n })

/-- Declares `n` fixed columns that follow each other. -/
def fixedBlock (n : Nat) : Configure (Vector Column n) :=
  fun sys => (.ofFn fun i => ⟨.fixed, sys.fixedCount + i.val⟩, { sys with fixedCount := sys.fixedCount + n })

/-- Names the columns of a block after the block and their position in it. -/
def labelBlock {n : Nat} (name : String) (block : Vector Column n) : Configure Unit :=
  modify fun sys => block.toList.zipIdx.foldl (fun sys (c, i) => sys.setLabel c s!"{name}[{i}]") sys

/-- Lets the columns of a list take part in copy constraints. -/
def linkAll (columns : List Column) : Configure Unit :=
  modify fun sys => columns.foldl (·.enableEquality ·) sys

end Configure

end ScriptCircuit
