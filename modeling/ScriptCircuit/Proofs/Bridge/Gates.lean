import Mathlib
import ScriptCircuit.Bridge.Witness
import ScriptCircuit.Proofs.Bytes.Word
import ScriptCircuit.Proofs.Field.Combination
import ScriptCircuit.Proofs.Plonk.Gadget

/-!
# What the gates of the signature bridge say

A view is what a bridge row holds, the cell under the zero test apart. On the row of a slot, with an exact zero test, the
gates are a statement about the views of two rows that follow each other: the challenge stays, its powers are the powers, the
combination is that of the bytes in the form of the first one, and a slot in use takes one from the count and folds its key.
-/

namespace ScriptCircuit.Bridge

open Combination

/-- What a bridge row holds. -/
structure View where
  challenge : Felt
  powers : Vector Felt 64
  checks : Felt
  keyAcc : Felt
  keyCombination : Felt
  form : Felt
  x : Vector Felt 32
  y : Vector Felt 32

/-- The combination of the bytes in a row: those of both coordinates in the full form, those of the first one otherwise. -/
def View.combination (v : View) : Felt :=
  if v.form = 4 then evalAt v.challenge (v.y.toList ++ v.x.toList ++ [v.form])
  else evalAt v.challenge (v.x.toList ++ [v.form])

/-- What the gates say of the row of a slot and the row behind it. -/
structure SlotStep (cur next : View) : Prop where
  challenge : next.challenge = cur.challenge
  powers : ∀ k (h : k < 64), cur.powers[k] = cur.challenge ^ (k + 1)
  form : cur.form = 2 ∨ cur.form = 3 ∨ cur.form = 4
  combination : cur.keyCombination = cur.combination
  used : cur.checks ≠ 0 →
    cur.keyAcc = cur.keyCombination + cur.challenge * next.keyAcc ∧ next.checks + 1 = cur.checks
  unused : cur.checks = 0 → cur.keyAcc = 0 ∧ next.checks = 0

namespace Columns

/-- The view of the cells of a row. -/
def view (c : Columns) (cell : Column → Felt) : View where
  challenge := cell c.challenge
  powers := c.powers.map cell
  checks := cell c.checks
  keyAcc := cell c.keyAcc
  keyCombination := cell c.keyCombination
  form := cell c.form
  x := c.x.map cell
  y := c.y.map cell

/-- The view of the row itself. -/
abbrev cur (c : Columns) (read : Column → Int → Felt) : View := c.view (read · 0)

/-- The view of the row after. -/
abbrev next (c : Columns) (read : Column → Int → Felt) : View := c.view (read · 1)

variable {c : Columns} {read : Column → Int → Felt}

/-! ## The powers of the challenge -/

theorem eval_power_zero : (c.power 0).eval read = 1 :=
  rfl

/-- The powers from one on are read from their columns. -/
theorem eval_power_succ {k : Nat} (hk : k < 64) : (c.power (k + 1)).eval read = (c.cur read).powers[k] := by
  have hcolumn : c.power (k + 1) = c.powers[k].cur := by
    rw [power, if_neg (Nat.succ_ne_zero k), Nat.add_sub_cancel, Vector.getElem?_eq_getElem hk]
    rfl
  rw [hcolumn, Column.eval_cur]
  exact (Vector.getElem_map (read · 0) hk).symm

variable (hslot : read c.isSlot 0 = 1)
include hslot

/-- The gate of the powers fills the row with the powers of the challenge and hands the challenge on. -/
theorem holds_powersGate : c.powersGate.Holds read ↔ (c.next read).challenge = (c.cur read).challenge ∧
    ∀ k (h : k < 64), (c.cur read).powers[k] = (c.cur read).challenge ^ (k + 1) := by
  have hsteps : Gate.Holds ⟨"randomness powers", (List.range 63).map fun k =>
      c.isSlot.cur * (c.power (k + 2) - c.power (k + 1) * c.challenge.cur)⟩ read ↔
        ∀ k (h : k < 63), (c.cur read).powers[k + 1] = (c.cur read).powers[k] * (c.cur read).challenge := by
    simp only [Gate.Holds, List.forall_mem_map, List.mem_range, Expr.eval_mul, Expr.eval_difference, Column.eval_cur, hslot,
      one_mul, sub_eq_zero]
    refine forall_congr' fun k => forall_congr' fun hk => ?_
    rw [eval_power_succ (k := k + 1) (Nat.succ_lt_succ hk), eval_power_succ (k := k) (Nat.lt_succ_of_lt hk)]
    rfl
  rw [powersGate, Gate.holds_append, Gate.holds_cons, Gate.holds_cons, hsteps]
  simp only [Gate.holds_nil, and_true, Expr.eval_mul, Expr.eval_difference, Column.eval_cur, Column.eval_next, hslot, one_mul,
    sub_eq_zero]
  rw [and_assoc, eval_power_succ (k := 0) (by decide)]
  refine and_congr_right fun _ => ?_
  constructor
  · rintro ⟨hfirst, hrest⟩ k
    induction k with
    | zero =>
      intro _
      rw [pow_one]
      exact hfirst
    | succ k ih =>
      intro hk
      rw [hrest k (Nat.lt_of_succ_lt_succ hk), ih (Nat.lt_of_succ_lt hk), ← pow_succ]
  · intro h
    refine ⟨(h 0 (by decide)).trans (pow_one _), fun k hk => ?_⟩
    rw [h (k + 1) (Nat.succ_lt_succ hk), h k (Nat.lt_succ_of_lt hk), ← pow_succ]

omit hslot

/-! ## The combination -/

variable {r : Felt} (hpowers : ∀ k (h : k < 64), (c.cur read).powers[k] = r ^ (k + 1))
include hpowers

/-- The cell of a power holds the power. -/
theorem eval_power {k : Nat} (hk : k ≤ 64) : (c.power k).eval read = r ^ k := by
  cases k with
  | zero => rw [eval_power_zero, pow_zero]
  | succ k => rw [eval_power_succ hk, hpowers k hk]

/-- The combination of the short form adds up the bytes of the first coordinate and the prefix. -/
theorem eval_shortCombination :
    c.shortCombination.eval read = evalAt r ((c.cur read).x.toList ++ [(c.cur read).form]) := by
  have hbytes : ((c.x.toList.zipIdx.map fun x => x.1.cur * c.power x.2).map (Expr.eval read)) =
      (c.cur read).x.toList.zipIdx.map fun x => x.1 * r ^ x.2 := by
    change _ = ((c.x.map (read · 0)).toList).zipIdx.map _
    rw [Vector.toList_map, List.zipIdx_map, List.map_map, List.map_map]
    refine List.map_congr_left fun x hx => ?_
    have hk : x.2 < c.x.toList.length := (List.getElem?_eq_some_iff.mp (List.mem_zipIdx_iff_getElem?.mp hx)).1
    rw [Vector.length_toList] at hk
    change read x.1 0 * (c.power x.2).eval read = read x.1 0 * _
    rw [eval_power hpowers (Nat.le_trans (Nat.le_of_lt hk) (by decide))]
    rfl
  have hsum : c.shortCombination.eval read = (c.form.cur * c.power 32).eval read +
      ((c.x.toList.zipIdx.map fun x => x.1.cur * c.power x.2).map (Expr.eval read)).sum := by
    rw [shortCombination, Expr.eval_sum, List.map_cons, List.sum_cons]
  rw [hsum, hbytes, sum_zipIdx, Expr.eval_mul, eval_power hpowers (by decide), evalAt_append, evalAt_cons, evalAt_nil,
    Vector.length_toList]
  change read c.form 0 * _ + _ = _ + _ * (_ + read c.form 0)
  ring

/-- The combination of the full form adds up the bytes of both coordinates and the prefix. -/
theorem eval_fullCombination : c.fullCombination.eval read =
    evalAt r ((c.cur read).y.toList ++ (c.cur read).x.toList ++ [(c.cur read).form]) := by
  have hbytes : (((c.x.toList.zip c.y.toList).zipIdx.flatMap fun x =>
      [x.1.1.cur * c.power (32 + x.2), x.1.2.cur * c.power x.2]).map (Expr.eval read)) =
        ((c.cur read).x.toList.zip (c.cur read).y.toList).zipIdx.flatMap fun x =>
          [x.1.1 * r ^ (32 + x.2), x.1.2 * r ^ x.2] := by
    change _ = ((c.x.map (read · 0)).toList.zip (c.y.map (read · 0)).toList).zipIdx.flatMap _
    rw [Vector.toList_map, Vector.toList_map, List.zip_map, List.zipIdx_map, List.flatMap_map, List.map_flatMap]
    refine List.flatMap_congr fun x hx => ?_
    have hk : x.2 < (c.x.toList.zip c.y.toList).length :=
      (List.getElem?_eq_some_iff.mp (List.mem_zipIdx_iff_getElem?.mp hx)).1
    rw [List.length_zip, Vector.length_toList, Vector.length_toList] at hk
    change [read x.1.1 0 * (c.power (32 + x.2)).eval read, read x.1.2 0 * (c.power x.2).eval read] =
      [read x.1.1 0 * _, read x.1.2 0 * _]
    rw [eval_power hpowers (by omega), eval_power hpowers (by omega)]
    rfl
  have hlength : (c.cur read).x.toList.length = (c.cur read).y.toList.length := by
    rw [Vector.length_toList, Vector.length_toList]
  have hsum : c.fullCombination.eval read = (c.form.cur * c.power 64).eval read +
      (((c.x.toList.zip c.y.toList).zipIdx.flatMap fun x =>
        [x.1.1.cur * c.power (32 + x.2), x.1.2.cur * c.power x.2]).map (Expr.eval read)).sum := by
    rw [fullCombination, Expr.eval_sum, List.map_cons, List.sum_cons]
  rw [hsum, hbytes, sum_zip_zipIdx _ hlength, Expr.eval_mul, eval_power hpowers (by decide), List.append_assoc, evalAt_append,
    evalAt_append, evalAt_cons, evalAt_nil, Vector.length_toList, Vector.length_toList]
  change read c.form 0 * _ + _ = _ + _ * (_ + _ * (_ + read c.form 0))
  ring

omit hpowers in
/-- The selector of the full form is one on it and zero on the short forms. -/
theorem eval_isFull (hform : (c.cur read).form = 2 ∨ (c.cur read).form = 3 ∨ (c.cur read).form = 4) :
    c.isFull.eval read = if (c.cur read).form = 4 then 1 else 0 := by
  have heval : c.isFull.eval read = ((c.cur read).form - 2) * ((c.cur read).form - 3) * 2⁻¹ := by
    simp only [isFull, Expr.eval_mul, Expr.eval_difference, Expr.eval_ofNat, Expr.eval_const, Felt.inv_eq, Felt.ofNat_eq,
      Nat.cast_ofNat]
    rfl
  rw [heval]
  rcases hform with h | h | h
  · rw [h, if_neg (by decide), sub_self, zero_mul, zero_mul]
  · rw [h, if_neg (by decide), sub_self, mul_zero, zero_mul]
  · have htwo : ((4 : Felt) - 2) * (4 - 3) = 2 := by decide
    rw [h, if_pos rfl, htwo, mul_inv_cancel₀ (by decide)]

/-- The combination of the serial key in a row, in the form of its first byte. -/
def serialCombination (c : Columns) : Expr :=
  (1 - c.isFull) * c.shortCombination + c.isFull * c.fullCombination

/-- The right side of the gate is the combination of the form that the prefix names. -/
theorem eval_serialCombination (hform : (c.cur read).form = 2 ∨ (c.cur read).form = 3 ∨ (c.cur read).form = 4) :
    c.serialCombination.eval read = View.combination { c.cur read with challenge := r } := by
  rw [serialCombination, View.combination, Expr.eval_add, Expr.eval_mul, Expr.eval_mul, Expr.eval_difference, Expr.eval_one,
    eval_isFull hform, eval_shortCombination hpowers, eval_fullCombination hpowers]
  by_cases h : (c.cur read).form = 4
  · rw [if_pos h, if_pos h, sub_self, zero_mul, zero_add, one_mul]
  · rw [if_neg h, if_neg h, sub_zero, one_mul, zero_mul, add_zero]

omit hpowers

include hslot

/-- The gate of the combination asks for a known prefix and for its combination. -/
theorem holds_combinationGate (hpowers : ∀ k (h : k < 64), (c.cur read).powers[k] = (c.cur read).challenge ^ (k + 1)) :
    c.combinationGate.Holds read ↔
      ((c.cur read).form = 2 ∨ (c.cur read).form = 3 ∨ (c.cur read).form = 4) ∧
        (c.cur read).keyCombination = (c.cur read).combination := by
  have hgate : c.combinationGate.polys = [c.isSlot.cur * (c.form.cur - .ofNat 2) * (c.form.cur - .ofNat 3) *
      (c.form.cur - .ofNat 4), c.isSlot.cur * (c.keyCombination.cur - c.serialCombination)] := rfl
  rw [Gate.Holds, hgate, List.forall_mem_cons, List.forall_mem_singleton]
  simp only [Expr.eval_mul, Expr.eval_difference, Expr.eval_ofNat, Column.eval_cur, hslot, one_mul, Felt.ofNat_eq,
    Nat.cast_ofNat, mul_eq_zero, sub_eq_zero, or_assoc]
  refine and_congr_right fun hform => ?_
  rw [eval_serialCombination hpowers hform]
  rfl

/-! ## The fold -/

/-- The gate of the fold takes a key off while keys are left, and asks for zero behind them. -/
theorem holds_foldGate (hexact : c.done.Exact read) : c.foldGate.Holds read ↔
    ((c.cur read).checks ≠ 0 →
      (c.cur read).keyAcc = (c.cur read).keyCombination + (c.cur read).challenge * (c.next read).keyAcc ∧
        (c.next read).checks + 1 = (c.cur read).checks) ∧
      ((c.cur read).checks = 0 → (c.cur read).keyAcc = 0 ∧ (c.next read).checks = 0) := by
  have hdone : c.done.indicator.eval read = if (c.cur read).checks = 0 then 1 else 0 := hexact
  simp only [foldGate, Gate.holds_cons, Gate.holds_nil, and_true, Expr.eval_mul, Expr.eval_difference, Expr.eval_add,
    Expr.eval_one, Column.eval_cur, Column.eval_next, hslot, one_mul, hdone]
  by_cases h : (c.cur read).checks = 0
  · simp only [h, ↓reduceIte, sub_self, zero_mul, one_mul, true_and, ne_eq, not_true_eq_false, false_implies, true_implies]
    rfl
  · simp only [h, ↓reduceIte, sub_zero, zero_mul, one_mul, and_true, ne_eq, not_false_eq_true, false_implies, true_implies,
      sub_sub, sub_eq_zero]
    rfl

/-- The gates of a slot, with an exact zero test. -/
theorem slotStep_iff (hexact : c.done.Exact read) : SlotStep (c.cur read) (c.next read) ↔
    c.powersGate.Holds read ∧ c.combinationGate.Holds read ∧ c.foldGate.Holds read := by
  rw [holds_powersGate hslot, holds_foldGate hslot hexact]
  constructor
  · intro h
    exact ⟨⟨h.challenge, h.powers⟩, (holds_combinationGate hslot h.powers).mpr ⟨h.form, h.combination⟩, h.used, h.unused⟩
  · rintro ⟨⟨hchallenge, hpowers⟩, hcombination, hused, hunused⟩
    obtain ⟨hform, hcombination⟩ := (holds_combinationGate hslot hpowers).mp hcombination
    exact ⟨hchallenge, hpowers, hform, hcombination, hused, hunused⟩

omit hslot

/-- Behind the slots nothing is left. -/
theorem holds_endGate (hend : read c.isEnd 0 = 1) :
    c.endGate.Holds read ↔ (c.cur read).checks = 0 ∧ (c.cur read).keyAcc = 0 := by
  simp only [endGate, Gate.holds_cons, Gate.holds_nil, and_true, Expr.eval_mul, Column.eval_cur, hend, one_mul]
  rfl

end Columns

/-! ## The combination of a key -/

/-- The combination of a key, with the bytes of its serial form from the last one to the first. -/
theorem keyCombination_eq (key : PublicKey) (compressed : Bool) (r : Felt) : keyCombination key compressed r =
    evalAt r (((if compressed then [] else key.y.bytes.reverse) ++ key.x.bytes.reverse ++ [key.form compressed]).map
      .ofByte) := by
  rw [keyCombination, horner_eq_evalAt, PublicKey.serialize, List.reverse_append, List.reverse_cons]
  cases compressed
  · rw [List.append_assoc]
    rfl
  · rfl

/-- The first byte of a serial key is one of the three that the gates know. -/
theorem ofByte_form (key : PublicKey) (compressed : Bool) : Felt.ofByte (key.form compressed) = 2 ∨
    Felt.ofByte (key.form compressed) = 3 ∨ Felt.ofByte (key.form compressed) = 4 := by
  unfold PublicKey.form
  cases compressed <;> cases key.isOdd <;> decide

/-- A row that holds the bytes of a key and the first byte of its serial form has the combination of the key. -/
theorem View.combination_of_key {v : View} {key : PublicKey} {compressed : Bool} {r : Felt} (hchallenge : v.challenge = r)
    (hform : v.form = .ofByte (key.form compressed)) (hx : v.x.toList = key.x.bytes.reverse.map .ofByte)
    (hy : v.y.toList = key.y.bytes.reverse.map .ofByte) : v.combination = Bridge.keyCombination key compressed r := by
  rw [View.combination, hchallenge, hform, hx, hy, keyCombination_eq]
  cases compressed with
  | false =>
    have hfull : Felt.ofByte (key.form false) = 4 := rfl
    rw [if_pos hfull]
    simp
  | true =>
    have hshort : Felt.ofByte (key.form true) ≠ 4 := by
      unfold PublicKey.form
      cases key.isOdd <;> decide
    rw [if_neg hshort]
    simp

end ScriptCircuit.Bridge
