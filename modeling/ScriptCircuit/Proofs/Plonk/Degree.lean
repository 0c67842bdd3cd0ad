import Mathlib
import ScriptCircuit.Proofs.Field.Algebra
import ScriptCircuit.Proofs.Plonk.Plan

/-!
# Degrees

The degree that is counted on the tree of a polynomial over cells bounds a real degree: when the queried cells move along a line,
the value moves along a polynomial in one variable of at most that degree. The degree of a system is the least number that bounds
all its gates, and its lookups with one degree more.
-/

namespace ScriptCircuit

open Polynomial

namespace Expr

/-- The polynomial in one variable that comes about when every query is replaced by one. -/
noncomputable def along (path : Column → Int → Felt[X]) : Expr → Felt[X]
  | const value => C value
  | query column rotation => path column rotation
  | add left right => left.along path + right.along path
  | mul left right => left.along path * right.along path
  | neg e => -e.along path

variable {path : Column → Int → Felt[X]}

/-- The polynomial along a path has the value of the expression at the points of the path. -/
theorem eval_along (t : Felt) (e : Expr) :
    (e.along path).eval t = e.eval fun column rotation => (path column rotation).eval t := by
  induction e with
  | const value => exact eval_C
  | query column rotation => rfl
  | add left right ihl ihr => rw [along, Polynomial.eval_add, ihl, ihr, eval]
  | mul left right ihl ihr => rw [along, Polynomial.eval_mul, ihl, ihr, eval]
  | neg e ih => rw [along, Polynomial.eval_neg, ih, eval]

/-- Queries of degree one give at most the degree that counts every query as one. -/
theorem natDegree_along_le (hpath : ∀ column rotation, (path column rotation).natDegree ≤ 1) (e : Expr) :
    (e.along path).natDegree ≤ e.degree := by
  induction e with
  | const value => exact (natDegree_C value).le
  | query column rotation => exact hpath column rotation
  | add left right ihl ihr => exact (natDegree_add_le _ _).trans (max_le_max ihl ihr)
  | mul left right ihl ihr => exact natDegree_mul_le.trans (Nat.add_le_add ihl ihr)
  | neg e ih => exact (natDegree_neg _).trans_le ih

/-- A query that moves along a line. -/
noncomputable def line (a b : Column → Int → Felt) (column : Column) (rotation : Int) : Felt[X] :=
  C (a column rotation) + X * C (b column rotation)

/-- A line starts at its first point and goes on by its second. -/
theorem eval_line (a b : Column → Int → Felt) (column : Column) (rotation : Int) (t : Felt) :
    (line a b column rotation).eval t = a column rotation + t * b column rotation := by
  rw [line, Polynomial.eval_add, eval_C, Polynomial.eval_mul, eval_X, eval_C]

/-- A line has degree one at most. -/
theorem natDegree_line_le (a b : Column → Int → Felt) (column : Column) (rotation : Int) :
    (line a b column rotation).natDegree ≤ 1 := by
  refine (natDegree_add_le _ _).trans (max_le ((natDegree_C _).trans_le (Nat.zero_le 1)) ?_)
  exact natDegree_mul_le.trans (Nat.add_le_add natDegree_X.le (natDegree_C _).le)

end Expr

/-- The degree of a system is the least bound of what its gates and lookups count. -/
theorem System.maxDegree_le_iff {sys : System} {bound : Nat} :
    sys.maxDegree ≤ bound ↔
      (∀ g ∈ sys.gates, ∀ e ∈ g.polys, e.degree ≤ bound) ∧ ∀ l ∈ sys.lookups, ∀ e ∈ l.inputs, e.degree + 1 ≤ bound := by
  rw [maxDegree, Layouter.foldl_max_le, and_iff_right (Nat.zero_le bound), List.forall_mem_append]
  simp only [List.forall_mem_flatMap, List.forall_mem_map]

/-- Degrees are bounds. When the queries move along a line, the value of a polynomial over cells moves along a polynomial in one
variable of at most its degree; and the degree of a system is at least that of every polynomial of a gate, and above that of
every input of a lookup. -/
theorem Expr.degree_bounds (e : Expr) (a b : Column → Int → Felt) (sys : System) :
    (∃ p : Felt[X], p.natDegree ≤ e.degree ∧
        ∀ t, e.eval (fun column rotation => a column rotation + t * b column rotation) = p.eval t) ∧
      (∀ g ∈ sys.gates, ∀ f ∈ g.polys, f.degree ≤ sys.maxDegree) ∧
      ∀ l ∈ sys.lookups, ∀ f ∈ l.inputs, f.degree + 1 ≤ sys.maxDegree := by
  refine ⟨⟨e.along (line a b), natDegree_along_le (natDegree_line_le a b) e, fun t => ?_⟩,
    System.maxDegree_le_iff.mp le_rfl⟩
  simp only [eval_along, eval_line]

/-- A column in which every cell is the sum of the two before it wherever a selector is on, and a lookup of its cells. -/
def System.summing : System where
  adviceCount := 1
  fixedCount := 2
  instanceCount := 0
  equality := []
  labels := []
  gates := [⟨"sum", [.mul (.query ⟨.fixed, 0⟩ 0) (.add (.query ⟨.advice, 0⟩ 1)
    (.neg (.add (.query ⟨.advice, 0⟩ 0) (.query ⟨.advice, 0⟩ (-1)))))]⟩]
  lookups := [⟨"small", [(.mul (.query ⟨.fixed, 0⟩ 0) (.query ⟨.advice, 0⟩ 0), ⟨.fixed, 1⟩)]⟩]

/-- A square and a system whose gate and lookup reach the bounds. -/
theorem Expr.degree_bounds_summing :
    let square : Expr := .mul (.query ⟨.advice, 0⟩ 0) (.query ⟨.advice, 0⟩ 0)
    (∃ p : Felt[X], p.natDegree ≤ 2 ∧ ∀ t, square.eval (fun _ rotation => .ofInt rotation + t * 1) = p.eval t) ∧
      2 ≤ System.summing.maxDegree ∧ 2 + 1 ≤ System.summing.maxDegree ∧ System.summing.maxDegree = 3 := by
  intro square
  obtain ⟨hline, hgates, hlookups⟩ := square.degree_bounds (fun _ rotation => .ofInt rotation) (fun _ _ => 1) System.summing
  refine ⟨hline, ?_, ?_, rfl⟩
  · exact hgates _ List.mem_cons_self _ List.mem_cons_self
  · exact hlookups _ List.mem_cons_self _ List.mem_cons_self

end ScriptCircuit
