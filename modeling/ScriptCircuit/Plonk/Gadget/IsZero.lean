import ScriptCircuit.Plonk.Region

/-!
# The zero test

A witness column holds the inverse of a value, or zero for zero. Where `value * (1 - value * inverse)` vanishes, the
indicator `1 - value * inverse` is one on zero and zero elsewhere.
-/

namespace ScriptCircuit

/-- The zero test of a polynomial. -/
structure IsZero where
  value : Expr
  /-- the advice column of the inverse -/
  inverse : Column
deriving DecidableEq

namespace IsZero

/-- One where the value is zero, and zero elsewhere. -/
def indicator (z : IsZero) : Expr :=
  1 - z.value * z.inverse.cur

/-- The gate that ties the inverse to the value wherever `enable` is not zero. -/
def gate (z : IsZero) (name : String) (enable : Expr) : Gate where
  name := s!"{name} is zero"
  polys := [enable * z.value * z.indicator]

/-- Writes the inverse of a value. -/
def assign (z : IsZero) (offset : Nat) (x : Felt) : Fill AssignedCell :=
  Fill.assignAdvice z.inverse offset x.inv

end IsZero

end ScriptCircuit
