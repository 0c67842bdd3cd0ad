import Mathlib
import ScriptCircuit.Plonk.Gadget.ByteRange
import ScriptCircuit.Plonk.Gadget.IsZero
import ScriptCircuit.Proofs.Field.Algebra
import ScriptCircuit.Proofs.Plonk.Satisfied

/-!
# What the gadgets enforce

A zero test whose gate holds tells zero from everything else, whatever is written under it; with the inverse under it the
gate holds.
-/

namespace ScriptCircuit

namespace Column

/-- A query of the row itself. -/
@[simp] theorem eval_cur (read : Column → Int → Felt) (c : Column) : c.cur.eval read = read c 0 :=
  rfl

/-- A query of the row before. -/
@[simp] theorem eval_prev (read : Column → Int → Felt) (c : Column) : c.prev.eval read = read c (-1) :=
  rfl

/-- A query of the row after. -/
@[simp] theorem eval_next (read : Column → Int → Felt) (c : Column) : c.next.eval read = read c 1 :=
  rfl

end Column

/-- A difference is read as the difference. -/
theorem Expr.eval_difference (read : Column → Int → Felt) (e e' : Expr) :
    (e - e').eval read = e.eval read - e'.eval read := by
  rw [eval_sub, ← sub_eq_add_neg]

/-- A sum is read as the sum. -/
theorem Expr.eval_sum (read : Column → Int → Felt) (es : List Expr) : (sum es).eval read = (es.map (eval read)).sum := by
  cases es with
  | nil => rfl
  | cons e es =>
    have hfold : ∀ acc : Felt, es.foldl (fun acc e => acc + e.eval read) acc = acc + (es.map (eval read)).sum := by
      induction es with
      | nil =>
        intro acc
        exact (add_zero acc).symm
      | cons f es ih =>
        intro acc
        rw [List.foldl_cons, ih, List.map_cons, List.sum_cons, add_assoc]
    rw [eval_sum_cons, hfold, List.map_cons, List.sum_cons]

namespace Gate

variable {name : String} {polys polys' : List Expr} {e : Expr} {read : Column → Int → Felt}

theorem holds_nil : Holds ⟨name, []⟩ read ↔ True :=
  iff_true_intro fun _ h => nomatch h

/-- A gate holds when its first polynomial vanishes and the others do. -/
theorem holds_cons : Holds ⟨name, e :: polys⟩ read ↔ e.eval read = 0 ∧ Holds ⟨name, polys⟩ read :=
  List.forall_mem_cons

/-- The polynomials of a gate can be checked in two parts. -/
theorem holds_append :
    Holds ⟨name, polys ++ polys'⟩ read ↔ Holds ⟨name, polys⟩ read ∧ Holds ⟨name, polys'⟩ read :=
  List.forall_mem_append

/-- A polynomial behind a factor vanishes when the factor or the polynomial does. -/
theorem eval_guarded (cond : Expr) : (cond * e).eval read = 0 ↔ (cond.eval read = 0 ∨ e.eval read = 0) := by
  rw [Expr.eval_mul, mul_eq_zero]

end Gate

namespace IsZero

variable {read : Column → Int → Felt} {z : IsZero}

/-- The indicator is one on zero and zero elsewhere. -/
def Exact (z : IsZero) (read : Column → Int → Felt) : Prop :=
  z.indicator.eval read = if z.value.eval read = 0 then 1 else 0

/-- The indicator is one less the value times the claimed inverse. -/
theorem eval_indicator : z.indicator.eval read = 1 - z.value.eval read * read z.inverse 0 := by
  rw [indicator, Expr.eval_sub, ← sub_eq_add_neg]
  rfl

/-- Where its gate is switched on, it holds exactly when the indicator is exact. -/
theorem holds_gate_iff {name : String} {enable : Expr} (h : enable.eval read ≠ 0) :
    (z.gate name enable).Holds read ↔ z.Exact read := by
  rw [gate, Gate.holds_cons, and_iff_left (Gate.holds_nil.mpr trivial), Expr.eval_mul, Expr.eval_mul, Exact, eval_indicator]
  by_cases hzero : z.value.eval read = 0
  · rw [if_pos hzero, hzero]
    simp
  · rw [if_neg hzero, mul_eq_zero, mul_eq_zero, or_iff_right (not_or.mpr ⟨h, hzero⟩)]

/-- A zero test that is switched off holds. -/
theorem holds_gate_of_off {name : String} {enable : Expr} (h : enable.eval read = 0) :
    (z.gate name enable).Holds read := by
  rw [gate, Gate.holds_cons, and_iff_left (Gate.holds_nil.mpr trivial), Expr.eval_mul, Expr.eval_mul, h, zero_mul, zero_mul]

/-- The inverse of the value makes the indicator exact. -/
theorem exact_of_inverse (h : read z.inverse 0 = (z.value.eval read)⁻¹) : z.Exact read := by
  rw [Exact, eval_indicator, h]
  by_cases hzero : z.value.eval read = 0
  · rw [if_pos hzero, hzero, zero_mul, sub_zero]
  · rw [if_neg hzero, mul_inv_cancel₀ hzero, sub_self]

/-- The test depends on its value and on the cell of the inverse only. -/
theorem exact_congr {read' : Column → Int → Felt} (hvalue : z.value.eval read' = z.value.eval read)
    (hinverse : read' z.inverse 0 = read z.inverse 0) : z.Exact read' ↔ z.Exact read := by
  rw [Exact, Exact, eval_indicator, eval_indicator, hvalue, hinverse]

end IsZero

end ScriptCircuit
