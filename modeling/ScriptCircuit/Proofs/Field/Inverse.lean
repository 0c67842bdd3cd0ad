import Mathlib
import ScriptCircuit.Proofs.Field.Residue

/-!
# Inverting a list

A list is inverted in two passes that share one inverse. On the way forward every element meets the product of the elements in
front of it. On the way back the inverse of the product of all elements that are still to be met is at hand, so the product met
on the way forward cancels all of it but the inverse of the element itself.
-/

namespace ScriptCircuit.Felt

/-! ## The way forward -/

/-- There is one partial product for each element. -/
theorem length_partialProducts (acc : Felt) (elements : List Felt) :
    (partialProducts acc elements).1.length = elements.length := by
  induction elements generalizing acc with
  | nil => rfl
  | cons a rest ih => exact congrArg (· + 1) (ih (acc * a))

/-- The way forward ends with the product of all elements. -/
theorem total_partialProducts (acc : Felt) (elements : List Felt) :
    (partialProducts acc elements).2 = acc * elements.prod := by
  induction elements generalizing acc with
  | nil => exact (mul_one acc).symm
  | cons a rest ih =>
    rw [List.prod_cons, ← mul_assoc]
    exact ih (acc * a)

/-! ## The way back -/

/-- The element that is met last on the way back is answered first in the list, from the inverse that is left when every element
met before has been multiplied out of it. -/
theorem unwind_concat (acc a before : Felt) (pairs : List (Felt × Felt)) (done : List Felt) :
    unwind acc (pairs ++ [(a, before)]) done = before * (acc * (pairs.map Prod.fst).prod) :: unwind acc pairs done := by
  induction pairs generalizing acc done with
  | nil => rw [List.nil_append, unwind, unwind, unwind, List.map_nil, List.prod_nil, mul_one]
  | cons pair pairs ih => rw [List.cons_append, unwind, unwind, ih, List.map_cons, List.prod_cons, mul_assoc]

/-- From the inverse of the product of all elements the way back gives the inverses of the elements, in their order. -/
theorem unwind_partialProducts {before : Felt} {elements : List Felt} (hbefore : before ≠ 0) (helements : 0 ∉ elements)
    (done : List Felt) :
    unwind (before * elements.prod)⁻¹ (elements.zip (partialProducts before elements).1).reverse done =
      elements.map (·⁻¹) ++ done := by
  induction elements generalizing before with
  | nil => rfl
  | cons a rest ih =>
    rw [List.mem_cons, not_or] at helements
    have ha : a ≠ 0 := Ne.symm helements.1
    have hrest : rest.prod ≠ 0 := List.prod_ne_zero helements.2
    have hzip : (a :: rest).zip (partialProducts before (a :: rest)).1 =
        (a, before) :: rest.zip (partialProducts (before * a) rest).1 := rfl
    have hfst : ((rest.zip (partialProducts (before * a) rest).1).reverse.map Prod.fst).prod = rest.prod := by
      rw [List.map_reverse, List.prod_reverse, List.map_fst_zip (length_partialProducts _ _).ge]
    have hcancel : before * ((before * a * rest.prod)⁻¹ * rest.prod) = a⁻¹ := by
      field_simp
    rw [hzip, List.reverse_cons, List.prod_cons, ← mul_assoc, unwind_concat, hfst, hcancel,
      ih (mul_ne_zero hbefore ha) helements.2, List.map_cons, List.cons_append]

/-- A list is inverted exactly when it does not hold zero, and then to the inverses of its elements. -/
theorem batchInverse_eq (elements : List Felt) :
    batchInverse elements = if 0 ∈ elements then .error .zeroInBatch else .ok (elements.map (·⁻¹)) := by
  unfold batchInverse
  cases elements with
  | nil => rfl
  | cons a rest =>
    by_cases hzero : 0 ∈ a :: rest
    · rw [if_neg (by simp), if_pos (List.contains_iff_mem.mpr hzero), if_pos hzero]
      rfl
    · have htotal : (partialProducts 1 (a :: rest)).2 = 1 * (a :: rest).prod := total_partialProducts 1 (a :: rest)
      have hne : 1 * (a :: rest).prod ≠ 0 := mul_ne_zero one_ne_zero (List.prod_ne_zero hzero)
      have hunwind := unwind_partialProducts one_ne_zero hzero []
      rw [List.append_nil] at hunwind
      rw [if_neg (by simp), if_neg (mt List.contains_iff_mem.mp hzero), if_neg hzero]
      dsimp only
      rw [htotal, inverse_eq, if_neg hne]
      exact congrArg Except.ok hunwind

/-- Inverting a list is inverting its elements: a list that holds zero is refused, and any other one is answered with the
inverses of its elements in their order. -/
theorem batchInverse_elementwise (elements : List Felt) :
    if 0 ∈ elements then ∃ e, batchInverse elements = .error e ∧ e.category = .domain
    else ∃ inverses, batchInverse elements = .ok inverses ∧
      List.Forall₂ (fun a b => a.inverse = .ok b ∧ a * b = 1) elements inverses := by
  rw [batchInverse_eq]
  split
  next => exact ⟨_, rfl, rfl⟩
  next hzero =>
    refine ⟨_, rfl, ?_⟩
    rw [List.forall₂_map_right_iff, List.forall₂_same]
    intro a ha
    have hne : a ≠ 0 := fun h => hzero (h ▸ ha)
    exact ⟨by rw [inverse_eq, if_neg hne, inv_eq], mul_inv_cancel₀ hne⟩

end ScriptCircuit.Felt
