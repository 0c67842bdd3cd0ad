import ScriptCircuit.Error

/-!
# Inverses

Inverses that refuse zero, quotients, and the inversion of a whole list with a single exponentiation.
-/

namespace ScriptCircuit.Felt

/-- The inverse of an element that is not zero. -/
def inverse (a : Felt) : Except Error Felt :=
  if a = 0 then throw .zeroInverse else pure a.inv

/-- The quotient by an element that is not zero. -/
def div (a b : Felt) : Except Error Felt :=
  return a * (← b.inverse)

/-- The products of all elements before each one, starting from `acc`, and the product of all. -/
def partialProducts (acc : Felt) : List Felt → List Felt × Felt
  | [] => ([], acc)
  | a :: rest =>
    let (products, total) := partialProducts (acc * a) rest
    (acc :: products, total)

/-- Unwinds the partial products of a list, read from its end: `acc` is the inverse of the product up to the element at
hand, so the inverse of that element is the product before it times `acc`. -/
def unwind (acc : Felt) : List (Felt × Felt) → List Felt → List Felt
  | [], done => done
  | (a, before) :: rest, done => unwind (acc * a) rest (before * acc :: done)

/-- The inverses of a list of elements that are not zero, in the same order. -/
def batchInverse (elements : List Felt) : Except Error (List Felt) :=
  if elements.isEmpty then pure []
  else if elements.contains 0 then throw .zeroInBatch
  else do
    let (products, total) := partialProducts 1 elements
    return unwind (← total.inverse) (elements.zip products).reverse []

end ScriptCircuit.Felt
