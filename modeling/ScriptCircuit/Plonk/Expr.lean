import ScriptCircuit.Error

/-!
# Polynomials over cells

Polynomials in the cells around a row: a query names a column and a rotation, the distance to the row it reads. A
difference is the sum with an opposite.
-/

namespace ScriptCircuit

/-- A polynomial over queried cells. -/
inductive Expr where
  | const (value : Felt)
  | query (column : Column) (rotation : Int)
  | add (left right : Expr)
  | mul (left right : Expr)
  | neg (e : Expr)
deriving DecidableEq

namespace Expr

instance : Zero Expr := ⟨const 0⟩
instance : One Expr := ⟨const 1⟩
instance : Inhabited Expr := ⟨0⟩
instance : Add Expr := ⟨add⟩
instance : Mul Expr := ⟨mul⟩
instance : Neg Expr := ⟨neg⟩
instance : Sub Expr := ⟨fun a b => add a (neg b)⟩

/-- The constant polynomial of a number. -/
def ofNat (n : Nat) : Expr :=
  const (.ofNat n)

/-- The value of a polynomial when `read` gives the queried cells. -/
def eval (read : Column → Int → Felt) : Expr → Felt
  | const value => value
  | query column rotation => read column rotation
  | add left right => left.eval read + right.eval read
  | mul left right => left.eval read * right.eval read
  | neg e => -e.eval read

/-- The degree, counting every query as one. -/
def degree : Expr → Nat
  | const _ => 0
  | query .. => 1
  | add left right => max left.degree right.degree
  | mul left right => left.degree + right.degree
  | neg e => e.degree

/-- The text of a rotation behind a column; the row itself is not written. -/
def rotationText (rotation : Int) : String :=
  if rotation = 0 then ""
  else if rotation > 0 then s!"[+{rotation}]"
  else s!"[{rotation}]"

/-- The text of a polynomial. A sum stands in brackets, a product does not. -/
def text : Expr → String
  | const value => value.text
  | query column rotation => column.text ++ rotationText rotation
  | add left right => "(" ++ left.text ++ " + " ++ right.text ++ ")"
  | mul left right => left.text ++ " * " ++ right.text
  | neg e => "-(" ++ e.text ++ ")"

/-- The sum of a list, bracketed from the left; the empty sum is zero. -/
def sum : List Expr → Expr
  | [] => 0
  | e :: rest => rest.foldl (· + ·) e

/-- A constant has its value. -/
@[simp] theorem eval_const (read : Column → Int → Felt) (value : Felt) : (const value).eval read = value :=
  rfl

/-- A query has the value of its cell. -/
@[simp] theorem eval_query (read : Column → Int → Felt) (column : Column) (rotation : Int) :
    (query column rotation).eval read = read column rotation :=
  rfl

/-- The value of zero. -/
@[simp] theorem eval_zero (read : Column → Int → Felt) : (0 : Expr).eval read = 0 :=
  rfl

@[simp] theorem eval_one (read : Column → Int → Felt) : (1 : Expr).eval read = 1 :=
  rfl

/-- The value of a number is its residue. -/
@[simp] theorem eval_ofNat (read : Column → Int → Felt) (n : Nat) : (ofNat n).eval read = .ofNat n :=
  rfl

/-- The value of a sum is the sum of the values. -/
@[simp] theorem eval_add (read : Column → Int → Felt) (a b : Expr) :
    (a + b).eval read = a.eval read + b.eval read :=
  rfl

/-- The value of a product is the product of the values. -/
@[simp] theorem eval_mul (read : Column → Int → Felt) (a b : Expr) :
    (a * b).eval read = a.eval read * b.eval read :=
  rfl

/-- The value of a negation is the negation of the value. -/
@[simp] theorem eval_neg (read : Column → Int → Felt) (e : Expr) : (-e).eval read = -e.eval read :=
  rfl

/-- A difference is read as the sum with the opposite. -/
@[simp] theorem eval_sub (read : Column → Int → Felt) (a b : Expr) :
    (a - b).eval read = a.eval read + -b.eval read :=
  rfl

/-- A sum is read from the left. -/
theorem eval_sum_cons (read : Column → Int → Felt) (e : Expr) (rest : List Expr) :
    (sum (e :: rest)).eval read = rest.foldl (fun acc f => acc + f.eval read) (e.eval read) := by
  change (rest.foldl (· + ·) e).eval read = _
  induction rest generalizing e with
  | nil => rfl
  | cons f rest ih => rw [List.foldl_cons, List.foldl_cons, ih (e + f), eval_add]

end Expr

namespace Column

/-- The cell of a column in the row itself. -/
def cur (c : Column) : Expr :=
  .query c 0

/-- The cell of a column in the row before. -/
def prev (c : Column) : Expr :=
  .query c (-1)

/-- The cell of a column in the row after. -/
def next (c : Column) : Expr :=
  .query c 1

end Column

end ScriptCircuit
