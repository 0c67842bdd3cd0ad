/-!
# Numbers of JSON documents

An integer is exact. A number written with a fraction or an exponent, and an integer beyond 64 bits, stands for the
nearest number with 53 significant binary digits, ties going to the even one.
-/

namespace ScriptCircuit

/-- A number, as it was written. -/
inductive JsonNumber where
  | integer (n : Int)
  /-- `mantissa * 10 ^ exponent` -/
  | decimal (mantissa exponent : Int)
deriving DecidableEq, Repr, Inhabited

namespace JsonNumber

/-- The quotient rounded to the nearest integer, a half to the even one. -/
def roundDiv (numerator denominator : Nat) : Nat :=
  let q := numerator / denominator
  let twice := 2 * (numerator % denominator)
  if twice < denominator ∨ (twice = denominator ∧ q % 2 = 0) then q else q + 1

/-- The integer part of the nearest number with 53 significant binary digits. -/
def truncateNearest (numerator denominator : Nat) : Nat :=
  let whole := numerator / denominator
  if whole < 9007199254740992 then
    let scale := Nat.pow 2 (if whole = 0 then 53 else 52 - whole.log2)
    roundDiv (numerator * scale) denominator / scale
  else
    let unit := Nat.pow 2 (whole.log2 - 52)
    roundDiv numerator (denominator * unit) * unit

/-- The absolute value of a number that is not exact, cut toward zero; beyond 10^400 it is some number that large. -/
def truncateDecimal (mantissa : Nat) (exponent : Int) : Nat :=
  if mantissa = 0 ∨ exponent < -(400 + (mantissa.log2 : Int)) then 0
  else if exponent > 400 then Nat.pow 10 400
  else if exponent ≥ 0 then truncateNearest (mantissa * Nat.pow 10 exponent.toNat) 1
  else truncateNearest mantissa (Nat.pow 10 (-exponent).toNat)

/-- The word of a number: negative numbers wrap modulo 2^64, fractions are cut toward zero. Beyond the words a positive
number counts as zero and a negative one as -2^63. -/
def toWord (n : JsonNumber) : UInt64 :=
  match n with
  | integer n =>
    if -9223372036854775808 ≤ n ∧ n < UInt64.size then .ofNat (n % UInt64.size).toNat
    else word n.natAbs 0 (n < 0)
  | decimal mantissa exponent => word mantissa.natAbs exponent (mantissa < 0)
where
  /-- The word of a number that is not exact, by its absolute value and its sign. -/
  word (mantissa : Nat) (exponent : Int) (negative : Bool) : UInt64 :=
    let value := truncateDecimal mantissa exponent
    if negative then 0 - .ofNat (min value 9223372036854775808)
    else if value < UInt64.size then .ofNat value
    else 0

/-- The text of a number. -/
def text : JsonNumber → String
  | integer n => toString n
  | decimal mantissa exponent => s!"{mantissa}e{exponent}"

end JsonNumber

end ScriptCircuit
