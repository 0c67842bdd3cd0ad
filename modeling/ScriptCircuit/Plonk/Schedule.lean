import ScriptCircuit.Plonk.Check

/-!
# Checking by a schedule

The rows of a gate or of a lookup may be evaluated in any order, as several threads do that share them. Every evaluation has
a flag of its own, which it sets when it fails; when all evaluations are done, the failures are read off the flags. A row
that a query reads is found by a remainder with the sign of its dividend, which is mended when it lies below zero.
-/

namespace ScriptCircuit

/-- The flags after the evaluations of a list, one after the other, each of which sets the flag of its slot when it fails. -/
def flagged {α : Type} (slot : α → Nat) (fails : α → Bool) (order : List α) (size : Nat) : Array Bool :=
  order.foldl (fun flags x => if fails x then flags.setIfInBounds (slot x) true else flags) (.replicate size false)

/-- The order of the evaluations of every gate, given by row and number of the polynomial, and of every lookup, given by row.
Gates and lookups are numbered as they are declared. -/
structure Schedule where
  gate : Nat → List (Nat × Nat)
  lookup : Nat → List Nat

namespace Claim

/-- The row a query reads. -/
def wrap (c : Claim) (row : Nat) (rotation : Int) : Nat :=
  let target := (row + rotation).tmod c.rows
  (if target < 0 then target + c.rows else target).toNat

/-- The value of a polynomial on a row. -/
def evalWrapped (c : Claim) (row : Nat) (e : Expr) : Felt :=
  e.eval fun column rotation => c.value column (c.wrap row rotation)

/-- A polynomial of a gate does not vanish on a row. -/
def evaluationFails (c : Claim) (g : Gate) (row index : Nat) : Bool :=
  g.polys[index]?.any fun e => c.evalWrapped row e != 0

/-- The failures of a gate whose evaluations are done in an order. -/
def gateFailuresBy (c : Claim) (order : List (Nat × Nat)) (g : Gate) : List Failure :=
  let slot row index := row * g.polys.length + index
  let flags := flagged (fun (row, index) => slot row index) (fun (row, index) => c.evaluationFails g row index) order
    (c.rows * g.polys.length)
  (List.range c.rows).flatMap fun row =>
    (List.range g.polys.length).filterMap fun index =>
      if flags.getD (slot row index) false then some (.gate g.name index row) else none

/-- The failures of a lookup whose evaluations are done in an order. -/
def lookupFailuresBy (c : Claim) (order : List Nat) (l : Lookup) : List Failure :=
  let table := c.tableRows l
  let flags := flagged id (fun row => !table.contains (l.inputs.map (c.evalWrapped row))) order c.rows
  (List.range c.rows).filterMap fun row =>
    if flags.getD row false then some (.lookup l.name row) else none

/-- All failures of a check whose evaluations are done by a schedule. -/
def failuresBy (c : Claim) (s : Schedule) : Except Error (List Failure) := do
  let gates := c.system.gates.zipIdx.flatMap fun (g, i) => c.gateFailuresBy (s.gate i) g
  let lookups ← c.system.lookups.zipIdx.mapM fun (l, i) => do
    l.table.forM fun column => discard (c.witness.matrix.column column)
    return c.lookupFailuresBy (s.lookup i) l
  let copies ← c.witness.copies.mapM c.copyFailure
  return gates ++ lookups.flatten ++ copies.reduceOption

end Claim

end ScriptCircuit
