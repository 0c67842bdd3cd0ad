import Mathlib
import ScriptCircuit.Proofs.Field.Combination

/-!
# Challenges on which combinations agree

A combination is the value of a polynomial whose degree lies below the number of its coefficients. Two different lists of
coefficients of one length give different polynomials, so they agree on fewer challenges than they have coefficients.
-/

namespace ScriptCircuit.Combination

open Polynomial

/-- The polynomial with given coefficients, the constant one first. -/
noncomputable def coefficientPoly (coefficients : List Felt) : Felt[X] :=
  coefficients.foldr (fun x acc => X * acc + C x) 0

/-- The first coefficient is the constant one. -/
theorem coefficientPoly_cons (x : Felt) (rest : List Felt) :
    coefficientPoly (x :: rest) = X * coefficientPoly rest + C x :=
  rfl

/-- The combination is a value of the polynomial. -/
theorem eval_coefficientPoly (r : Felt) (coefficients : List Felt) :
    (coefficientPoly coefficients).eval r = evalAt r coefficients := by
  induction coefficients with
  | nil => exact eval_zero
  | cons x rest ih => rw [coefficientPoly_cons, eval_add, eval_mul, eval_X, eval_C, ih, evalAt_cons]

/-- The coefficients are those of the list, and zero behind it. -/
theorem coeff_coefficientPoly (coefficients : List Felt) (k : Nat) :
    (coefficientPoly coefficients).coeff k = coefficients.getD k 0 := by
  induction coefficients generalizing k with
  | nil => exact coeff_zero k
  | cons x rest ih =>
    rw [coefficientPoly_cons, coeff_add]
    cases k with
    | zero => rw [coeff_X_mul_zero, coeff_C_zero, zero_add, List.getD_cons_zero]
    | succ k => rw [coeff_X_mul, coeff_C_succ, add_zero, ih, List.getD_cons_succ]

/-- The degree lies below the number of coefficients. -/
theorem degree_coefficientPoly_lt (coefficients : List Felt) : (coefficientPoly coefficients).degree < coefficients.length := by
  refine (degree_lt_iff_coeff_zero _ _).mpr fun k hk => ?_
  rw [coeff_coefficientPoly, List.getD_eq_default _ _ hk]

/-- Lists of one length are told apart by their polynomials. -/
theorem coefficientPoly_inj {xs ys : List Felt} (hlength : xs.length = ys.length)
    (h : coefficientPoly xs = coefficientPoly ys) : xs = ys := by
  refine List.ext_getElem hlength fun k hk hk' => ?_
  have hcoeff : (coefficientPoly xs).coeff k = (coefficientPoly ys).coeff k := by rw [h]
  rwa [coeff_coefficientPoly, coeff_coefficientPoly, List.getD_eq_getElem _ _ hk, List.getD_eq_getElem _ _ hk'] at hcoeff

/-- Two different lists of coefficients of one length agree on fewer challenges than they have coefficients. -/
theorem card_lt_of_evalAt_eq {xs ys : List Felt} (hlength : xs.length = ys.length) (hne : xs ≠ ys) {s : Finset Felt}
    (hs : ∀ r ∈ s, evalAt r xs = evalAt r ys) : s.card < xs.length := by
  by_contra hmany
  refine hne (coefficientPoly_inj hlength (eq_of_degree_sub_lt_of_eval_finset_eq s ?_ fun r hr => ?_))
  · have hdegree : (coefficientPoly xs - coefficientPoly ys).degree < xs.length :=
      (degree_sub_le _ _).trans_lt (max_lt (degree_coefficientPoly_lt xs) (hlength ▸ degree_coefficientPoly_lt ys))
    exact hdegree.trans_le (Nat.cast_le.mpr (Nat.not_lt.mp hmany))
  · rw [eval_coefficientPoly, eval_coefficientPoly, hs r hr]

end ScriptCircuit.Combination
