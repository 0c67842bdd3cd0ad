/-!
# The field

The prime field of order 2^64 - 2^32 + 1. An element is one machine word below the order, so equality of elements is
equality of words; sums and differences are taken with wrap-around and corrected once, a product is folded from its two
words with 2^64 = 2^32 - 1 and 2^96 = -1.
-/

namespace ScriptCircuit

/-- The order of the field, the prime 2^64 - 2^32 + 1. -/
abbrev fieldOrder : UInt64 := 18446744069414584321

/-- A field element: a word below the order. -/
structure Felt where
  val : UInt64
  val_lt : val < fieldOrder
deriving DecidableEq

namespace Felt

/-- The element a word stands for: its remainder by the order. -/
@[inline] def ofWord (x : UInt64) : Felt :=
  ⟨x % fieldOrder, UInt64.mod_lt x (by decide)⟩

/-- The element a number stands for. -/
def ofNat (n : Nat) : Felt :=
  ofWord (UInt64.ofNat (n % fieldOrder.toNat))

/-- The element of a byte. -/
def ofByte (b : UInt8) : Felt :=
  ofWord b.toUInt64

/-- The element an integer stands for. -/
def ofInt (n : Int) : Felt :=
  ofNat (n % (fieldOrder.toNat : Int)).toNat

/-- The canonical value. -/
def toNat (a : Felt) : Nat :=
  a.val.toNat

instance : Zero Felt := ⟨ofWord 0⟩
instance : One Felt := ⟨ofWord 1⟩
instance : NatCast Felt := ⟨ofNat⟩
instance : Inhabited Felt := ⟨0⟩
instance : Hashable Felt := ⟨fun a => hash a.val⟩

/-- The sum: one subtraction of the order when the word sum wrapped or reached the order. -/
def add (a b : Felt) : Felt :=
  let sum := a.val + b.val
  ofWord (if sum < a.val ∨ fieldOrder ≤ sum then sum - fieldOrder else sum)

/-- The difference: one addition of the order when the word difference wrapped. -/
def sub (a b : Felt) : Felt :=
  let difference := a.val - b.val
  ofWord (if a.val < b.val then difference + fieldOrder else difference)

/-- The opposite: zero stays, any other element is taken from the order. -/
def neg (a : Felt) : Felt :=
  if a.val = 0 then a else ofWord (fieldOrder - a.val)

/-- The upper word of the product of two words, by halves of 32 bits. -/
def upperWord (a b : UInt64) : UInt64 :=
  let a₀ := a % 4294967296
  let a₁ := a / 4294967296
  let b₀ := b % 4294967296
  let b₁ := b / 4294967296
  let inner := a₀ * b₁ + a₀ * b₀ / 4294967296
  let outer := a₁ * b₀ + inner % 4294967296
  a₁ * b₁ + inner / 4294967296 + outer / 4294967296

/-- The element of a number given by its upper and lower word. The upper half of the upper word weighs 2^96 = -1 and its
lower half weighs 2^64 = 2^32 - 1; a wrap below or above is mended by 2^32 - 1. -/
def ofWords (upper lower : UInt64) : Felt :=
  let top := upper / 4294967296
  let middle := upper % 4294967296 * 4294967295
  let low := if lower < top then lower - top - 4294967295 else lower - top
  let folded := low + middle
  ofWord (if folded < low then folded + 4294967295 else folded)

/-- The product of two elements, folded from its two words. -/
def mul (a b : Felt) : Felt :=
  ofWords (upperWord a.val b.val) (a.val * b.val)

instance : Add Felt := ⟨add⟩
instance : Sub Felt := ⟨sub⟩
instance : Neg Felt := ⟨neg⟩
instance : Mul Felt := ⟨mul⟩

/-- Square and multiply over the lowest `rounds` bits of the exponent. -/
def powRounds : Nat → Felt → Felt → UInt64 → Felt
  | 0, acc, _, _ => acc
  | rounds + 1, acc, base, exponent =>
    powRounds rounds (if exponent % 2 = 1 then acc * base else acc) (base * base) (exponent / 2)

/-- The power with a word as exponent, which is not reduced; the empty product is one, also for zero. -/
def pow (a : Felt) (exponent : UInt64) : Felt :=
  powRounds 64 1 a exponent

/-- The inverse by Fermat, `a ^ (order - 2)`, with zero sent to zero. -/
def inv (a : Felt) : Felt :=
  pow a (fieldOrder - 2)

/-- The decimal text of the canonical value. -/
def text (a : Felt) : String :=
  toString a.toNat

end Felt

end ScriptCircuit
