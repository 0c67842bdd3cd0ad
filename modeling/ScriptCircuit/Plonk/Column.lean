/-!
# Columns and cells

A circuit is a matrix. Its advice columns hold the witness, its fixed columns hold selectors and tables, and its instance
columns hold the public values; a cell is a column and an absolute row.
-/

namespace ScriptCircuit

/-- What a column holds. -/
inductive ColumnKind where
  | advice
  | fixed
  | publicInput
deriving DecidableEq, Repr

namespace ColumnKind

/-- The word that stands for the kind in texts. -/
def text : ColumnKind → String
  | advice => "advice"
  | fixed => "fixed"
  | publicInput => "instance"

end ColumnKind

/-- A column: its kind and its number among the columns of that kind. -/
structure Column where
  kind : ColumnKind
  index : Nat
deriving DecidableEq, Repr

/-- The text of a column, as in `advice[3]`. -/
def Column.text (c : Column) : String :=
  s!"{c.kind.text}[{c.index}]"

/-- A position in the matrix. -/
structure Cell where
  column : Column
  row : Nat
deriving DecidableEq, Repr

/-- The text of a cell, as in `advice[3]@7`. -/
def Cell.text (c : Cell) : String :=
  s!"{c.column.text}@{c.row}"

end ScriptCircuit
