import Mathlib
import ScriptCircuit.Field.Combination
import ScriptCircuit.Proofs.Field.Algebra

/-!
# Combinations as polynomials

All combinations are values of one polynomial: that with given coefficients, the constant one first. A byte string in order
puts its last byte first.
-/

namespace ScriptCircuit.Combination

/-- The value of the polynomial with given coefficients, the constant one first. -/
def evalAt (r : Felt) (coefficients : List Felt) : Felt :=
  coefficients.foldr (fun x acc => r * acc + x) 0

@[simp] theorem evalAt_nil (r : Felt) : evalAt r [] = 0 :=
  rfl

@[simp] theorem evalAt_cons (r x : Felt) (rest : List Felt) : evalAt r (x :: rest) = r * evalAt r rest + x :=
  rfl

/-- Coefficients behind others are shifted by a power of the point. -/
theorem evalAt_append (r : Felt) (xs ys : List Felt) :
    evalAt r (xs ++ ys) = evalAt r xs + r ^ xs.length * evalAt r ys := by
  induction xs with
  | nil => simp
  | cons x xs ih =>
    rw [List.cons_append, evalAt_cons, ih, evalAt_cons, List.length_cons, pow_succ]
    ring

/-- The reversed fold takes the bytes for coefficients. -/
theorem hornerReversed_eq_evalAt (r : Felt) (bytes : List UInt8) : hornerReversed r bytes = evalAt r (bytes.map .ofByte) := by
  induction bytes with
  | nil => rfl
  | cons b rest ih => rw [hornerReversed_cons, ih, List.map_cons, evalAt_cons]

/-- The reversed fold is the fold of the reversed bytes. -/
theorem hornerReversed_eq_horner (r : Felt) (bytes : List UInt8) : hornerReversed r bytes = horner r 0 bytes.reverse := by
  rw [horner, List.foldl_reverse, hornerReversed]

/-- The fold in order takes the bytes for coefficients, the last one first. -/
theorem horner_eq_evalAt (r : Felt) (bytes : List UInt8) :
    horner r 0 bytes = evalAt r (bytes.reverse.map .ofByte) := by
  rw [← hornerReversed_eq_evalAt, hornerReversed_eq_horner, List.reverse_reverse]

/-- The reversed fold is the sum of the bytes with the powers of their positions. -/
theorem hornerReversed_eq_sum (r : Felt) (bytes : List UInt8) :
    hornerReversed r bytes = ∑ i : Fin bytes.length, .ofByte (bytes.get i) * r ^ (i : Nat) := by
  induction bytes with
  | nil => rfl
  | cons b rest ih =>
    rw [hornerReversed_cons, ih, add_comm, Finset.mul_sum]
    refine Eq.trans (congrArg₂ _ ?_ (Finset.sum_congr rfl fun i _ => ?_)) (Fin.sum_univ_succ (n := rest.length) _).symm
    · exact (mul_one _).symm
    · change _ = Felt.ofByte (rest.get i) * r ^ ((i : Nat) + 1)
      rw [pow_succ]
      ring

/-- The fold in order carries its start over all bytes and adds every byte with the power of the number of bytes behind it. -/
theorem horner_eq_sum (r start : Felt) (bytes : List UInt8) :
    horner r start bytes =
      start * r ^ bytes.length + ∑ i : Fin bytes.length, .ofByte (bytes.get i) * r ^ (bytes.length - 1 - i) := by
  induction bytes generalizing start with
  | nil => simp [horner]
  | cons b rest ih =>
    have hstep : horner r start (b :: rest) = horner r (r * start + .ofByte b) rest := rfl
    have hweight : ∀ i : Fin rest.length, (b :: rest).length - 1 - (i.succ : Nat) = rest.length - 1 - i := by
      intro i
      simp only [List.length_cons, Fin.val_succ]
      omega
    have hsum : ∑ i : Fin (b :: rest).length, .ofByte ((b :: rest).get i) * r ^ ((b :: rest).length - 1 - i) =
        .ofByte b * r ^ rest.length + ∑ i : Fin rest.length, .ofByte (rest.get i) * r ^ (rest.length - 1 - i) := by
      refine (Fin.sum_univ_succ (n := rest.length) _).trans ?_
      simp only [hweight]
      rfl
    rw [hstep, ih, hsum, List.length_cons, pow_succ]
    ring

/-- The suffixes are the reversed folds of the tails. -/
theorem suffixes_eq_map (r : Felt) (bytes : List UInt8) : suffixes r bytes = bytes.tails.map (hornerReversed r) := by
  induction bytes with
  | nil => rfl
  | cons b rest ih => rw [suffixes_cons, ih, List.tails_cons, List.map_cons]

/-- Entry `i` of the suffixes is the combination of what is left behind byte `i`. -/
theorem getElem?_suffixes (r : Felt) {bytes : List UInt8} {i : Nat} (hi : i ≤ bytes.length) :
    (suffixes r bytes)[i]? = some (hornerReversed r (bytes.drop i)) := by
  have hlt : i < bytes.tails.length := by
    rw [List.length_tails]
    exact Nat.lt_succ_of_le hi
  rw [suffixes_eq_map, List.getElem?_map, List.getElem?_eq_getElem hlt, List.getElem_tails, Option.map_some]

/-- Entry `k` of the powers from a start is the start times power `k`. -/
theorem getElem?_powersFrom (r start : Felt) {k count : Nat} (hk : k ≤ count) :
    (powersFrom r start count)[k]? = some (start * r ^ k) := by
  induction count generalizing start k with
  | zero =>
    obtain rfl := Nat.le_zero.mp hk
    rw [pow_zero, mul_one]
    rfl
  | succ count ih =>
    cases k with
    | zero =>
      rw [pow_zero, mul_one]
      rfl
    | succ k =>
      rw [powersFrom, List.getElem?_cons_succ, ih _ (Nat.le_of_succ_le_succ hk), mul_assoc, ← pow_succ']

/-- Entry `k` of the powers is power `k`. -/
theorem getElem?_powers (r : Felt) {k count : Nat} (hk : k ≤ count) : (powers r count)[k]? = some (r ^ k) := by
  rw [powers, getElem?_powersFrom r 1 hk, one_mul]

/-- There is one power more than the highest exponent says. -/
theorem length_powersFrom (r start : Felt) (count : Nat) : (powersFrom r start count).length = count + 1 := by
  induction count generalizing start with
  | zero => rfl
  | succ count ih => rw [powersFrom, List.length_cons, ih]

/-- A sum of coefficients with the powers from a given one on. -/
theorem sum_zipIdx (r : Felt) (xs : List Felt) (n : Nat) :
    ((xs.zipIdx n).map fun x => x.1 * r ^ x.2).sum = r ^ n * evalAt r xs := by
  induction xs generalizing n with
  | nil => simp
  | cons x xs ih =>
    rw [List.zipIdx_cons, List.map_cons, List.sum_cons, ih, evalAt_cons, pow_succ]
    ring

/-- A sum of two rows of coefficients with powers that are shifted for the first row. -/
theorem sum_zip_zipIdx (r : Felt) {xs ys : List Felt} (h : xs.length = ys.length) (shift n : Nat) :
    (((xs.zip ys).zipIdx n).flatMap fun x => [x.1.1 * r ^ (shift + x.2), x.1.2 * r ^ x.2]).sum =
      r ^ n * (r ^ shift * evalAt r xs + evalAt r ys) := by
  induction xs generalizing ys n with
  | nil =>
    obtain rfl := List.eq_nil_of_length_eq_zero h.symm
    simp
  | cons x xs ih =>
    obtain ⟨y, ys, rfl⟩ := List.exists_cons_of_length_eq_add_one h.symm
    rw [List.zip_cons_cons, List.zipIdx_cons, List.flatMap_cons, List.sum_append, ih (Nat.succ.inj h), evalAt_cons, evalAt_cons,
      List.sum_cons, List.sum_cons, List.sum_nil, pow_succ, pow_add]
    ring

/-- The fold of serial keys in order, each by its own combination. -/
def keyFold (r : Felt) (keys : List (List UInt8)) : Felt :=
  keys.foldl (fun acc key => acc * r + horner r 0 key) 0

/-- One key more multiplies the fold by the challenge and adds the combination of the key. -/
theorem keyFold_concat (r : Felt) (keys : List (List UInt8)) (key : List UInt8) :
    keyFold r (keys ++ [key]) = keyFold r keys * r + horner r 0 key :=
  List.foldl_concat ..

end ScriptCircuit.Combination
