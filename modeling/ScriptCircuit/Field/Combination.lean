import ScriptCircuit.Field.Basic

/-!
# Random linear combinations

A byte string is committed to by one field element, its combination with the powers of a challenge `r`. Pushed data and
public keys put the highest power on the first byte, scripts put it on the last one.
-/

namespace ScriptCircuit

namespace Combination

/-- The fold `acc ↦ r * acc + b` over the bytes in order: the first byte gets the highest power of `r`. -/
def horner (r start : Felt) (bytes : List UInt8) : Felt :=
  bytes.foldl (fun acc b => r * acc + .ofByte b) start

/-- The same fold from the last byte to the first: byte `i` gets the power `i` of `r`. -/
def hornerReversed (r : Felt) (bytes : List UInt8) : Felt :=
  bytes.foldr (fun b acc => r * acc + .ofByte b) 0

/-- The reversed folds of every tail of the byte string, the whole string first and the empty one last. -/
def suffixes (r : Felt) : List UInt8 → List Felt
  | [] => [0]
  | b :: rest =>
    match suffixes r rest with
    | [] => []
    | acc :: accs => (r * acc + .ofByte b) :: acc :: accs

/-- The powers of `r` with the exponents `0` to `count`, times `start`. -/
def powersFrom (r start : Felt) : Nat → List Felt
  | 0 => [start]
  | count + 1 => start :: powersFrom r (start * r) count

/-- The powers of `r` with the exponents `0` to `count`. -/
def powers (r : Felt) (count : Nat) : List Felt :=
  powersFrom r 1 count

/-- The first byte of a string leaves its tail in the reversed fold, times the challenge. -/
theorem hornerReversed_cons (r : Felt) (b : UInt8) (rest : List UInt8) :
    hornerReversed r (b :: rest) = r * hornerReversed r rest + .ofByte b :=
  rfl

/-- The last byte of a string is added to the fold of what precedes it, times the challenge. -/
theorem horner_concat (r start : Felt) (bytes : List UInt8) (b : UInt8) :
    horner r start (bytes ++ [b]) = r * horner r start bytes + .ofByte b := by
  simp [horner]

/-- The suffixes of a string start with its own reversed fold. -/
theorem suffixes_cons (r : Felt) (b : UInt8) (rest : List UInt8) :
    suffixes r (b :: rest) = hornerReversed r (b :: rest) :: suffixes r rest := by
  induction rest generalizing b with
  | nil => rfl
  | cons c rest ih =>
    rw [hornerReversed_cons, suffixes, ih c]

/-- The first suffix is the whole string. -/
theorem headD_suffixes (r : Felt) (bytes : List UInt8) : (suffixes r bytes).headD 0 = hornerReversed r bytes := by
  cases bytes with
  | nil => rfl
  | cons b rest =>
    rw [suffixes_cons]
    rfl

/-- A script has one suffix more than it has bytes. -/
theorem length_suffixes (r : Felt) (bytes : List UInt8) : (suffixes r bytes).length = bytes.length + 1 := by
  induction bytes with
  | nil => rfl
  | cons b rest ih => rw [suffixes_cons, List.length_cons, ih, List.length_cons]

end Combination

end ScriptCircuit
