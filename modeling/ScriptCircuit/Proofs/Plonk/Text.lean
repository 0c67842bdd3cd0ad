import Mathlib
import ScriptCircuit.Plonk.Expr
import ScriptCircuit.Proofs.Field.Algebra

/-!
# Reading the text of a polynomial

A sum and an opposite carry brackets, a product carries none. So the text of a polynomial shows its tree up to the bracketing of
products: two polynomials have the same text exactly when they are made equal by moving brackets between factors, which changes
neither the degree nor any value.
-/

namespace ScriptCircuit

namespace TextAux

/-! ## Numbers -/

/-- What follows does not go on with a digit. -/
def NoDigit (rest : List Char) : Prop :=
  ∀ c ∈ rest.head?, c.isDigit = false

/-- A text whose first character is no digit does not continue a number. -/
theorem noDigit_cons {c : Char} (rest : List Char) (hc : c.isDigit = false) : NoDigit (c :: rest) := by
  rintro _ ⟨rfl⟩
  exact hc

/-- A number is read back from its digits when no digit follows. -/
theorem takeWhile_digits (n : Nat) {rest : List Char} (hrest : NoDigit rest) :
    (Nat.toDigits 10 n ++ rest).takeWhile Char.isDigit = Nat.toDigits 10 n := by
  have hstop : rest.takeWhile Char.isDigit = [] := by
    cases rest with
    | nil => rfl
    | cons c rest => exact List.takeWhile_cons_of_neg (by simp [hrest c rfl])
  rw [List.takeWhile_append_of_pos fun c hc => Nat.isDigit_of_mem_toDigits (by decide) (by decide) hc, hstop, List.append_nil]

/-- A number is read back up to the first character that is no digit. -/
theorem digits_cancel {m n : Nat} {rest rest' : List Char} (hrest : NoDigit rest) (hrest' : NoDigit rest')
    (h : Nat.toDigits 10 m ++ rest = Nat.toDigits 10 n ++ rest') : m = n ∧ rest = rest' := by
  have hdigits : Nat.toDigits 10 m = Nat.toDigits 10 n := by
    rw [← takeWhile_digits m hrest, h, takeWhile_digits n hrest']
  refine ⟨?_, ?_⟩
  · rw [← Nat.ofDigitChars_toDigits (b := 10) (n := m) (by decide) (by decide), hdigits,
      Nat.ofDigitChars_toDigits (by decide) (by decide)]
  · rw [hdigits] at h
    exact List.append_cancel_left h

/-! ## Queries -/

theorem toList_column (c : Column) : c.text.toList = c.kind.text.toList ++ '[' :: (Nat.toDigits 10 c.index ++ [']']) := by
  simp [Column.text, toString]

/-- A column is read back, whatever follows. -/
theorem column_cancel {c c' : Column} {rest rest' : List Char} (h : c.text.toList ++ rest = c'.text.toList ++ rest') :
    c = c' ∧ rest = rest' := by
  obtain ⟨kind, index⟩ := c
  obtain ⟨kind', index'⟩ := c'
  rw [toList_column, toList_column] at h
  have hkind : kind = kind' := by
    cases kind <;> cases kind' <;> simp [ColumnKind.text] at h ⊢
  subst hkind
  simp only [List.append_assoc, List.cons_append, List.append_cancel_left_eq, List.cons.injEq, true_and] at h
  obtain ⟨hindex, hrest⟩ := digits_cancel (noDigit_cons _ rfl) (noDigit_cons _ rfl) h
  exact ⟨by rw [hindex], (List.cons.inj hrest).2⟩

/-- The characters of a rotation. -/
theorem toList_rotation {r : Int} (hr : r ≠ 0) :
    (Expr.rotationText r).toList = '[' :: (if 0 < r then '+' else '-') :: (Nat.toDigits 10 r.natAbs ++ [']']) := by
  unfold Expr.rotationText
  rw [if_neg hr]
  rcases lt_trichotomy r 0 with hneg | rfl | hpos
  · have habs : (-r).toNat = r.natAbs := by omega
    simp [Int.repr_eq_if, Int.not_le.mpr hneg, Int.not_lt.mpr hneg.le, habs, toString]
  · exact absurd rfl hr
  · have habs : r.toNat = r.natAbs := by omega
    simp [Int.repr_eq_if, hpos, hpos.le, habs, toString]

end TextAux

open TextAux

namespace Expr

/-! ## Ends -/

/-- What can follow a factor: the end, a closing bracket, or a blank in front of an operator. -/
def EndsFactor (rest : List Char) : Prop :=
  ∀ c ∈ rest.head?, c = ')' ∨ c = ' '

/-- What can follow a polynomial as a whole: not another factor. -/
def EndsWhole (rest : List Char) : Prop :=
  EndsFactor rest ∧ ∀ more, rest ≠ ' ' :: '*' :: more

/-- What can follow a factor starts with no digit. -/
theorem EndsFactor.noDigit {rest : List Char} (h : EndsFactor rest) : NoDigit rest := by
  intro c hc
  rcases h c hc with rfl | rfl <;> rfl

/-- A blank can follow a factor. -/
theorem endsFactor_blank (rest : List Char) : EndsFactor (' ' :: rest) := by
  rintro _ ⟨rfl⟩
  exact .inr rfl

theorem endsWhole_nil : EndsWhole [] :=
  ⟨nofun, nofun⟩

/-- A closing bracket can follow a polynomial. -/
theorem endsWhole_close (rest : List Char) : EndsWhole (')' :: rest) := by
  refine ⟨?_, nofun⟩
  rintro _ ⟨rfl⟩
  exact .inl rfl

theorem endsWhole_plus (rest : List Char) : EndsWhole (' ' :: '+' :: rest) :=
  ⟨endsFactor_blank _, nofun⟩

/-- A rotation is read back in front of what can follow a factor. -/
theorem rotation_cancel {r r' : Int} {rest rest' : List Char} (hrest : EndsFactor rest) (hrest' : EndsFactor rest')
    (h : (rotationText r).toList ++ rest = (rotationText r').toList ++ rest') : r = r' ∧ rest = rest' := by
  have hopen : ∀ more, ¬EndsFactor ('[' :: more) := fun more hends => by simpa using hends '[' rfl
  by_cases hr : r = 0
  · by_cases hr' : r' = 0
    · rw [hr, hr'] at h
      exact ⟨hr.trans hr'.symm, List.append_cancel_left h⟩
    · rw [hr, toList_rotation hr'] at h
      change rest = _ at h
      rw [h] at hrest
      exact absurd hrest (hopen _)
  · by_cases hr' : r' = 0
    · rw [hr', toList_rotation hr] at h
      change _ = rest' at h
      rw [← h] at hrest'
      exact absurd hrest' (hopen _)
    · rw [toList_rotation hr, toList_rotation hr'] at h
      simp only [List.cons_append, List.append_assoc, List.cons.injEq, true_and] at h
      obtain ⟨hsign, h⟩ := h
      obtain ⟨habs, h⟩ := digits_cancel (noDigit_cons _ rfl) (noDigit_cons _ rfl) h
      refine ⟨?_, (List.cons.inj h).2⟩
      split at hsign <;> split at hsign <;> first | omega | exact absurd hsign (by decide)

/-! ## Texts -/

theorem toList_const (x : Felt) : (const x).text.toList = Nat.toDigits 10 x.toNat := by
  simp [text, Felt.text]

/-- The characters of a query. -/
theorem toList_query (column : Column) (rotation : Int) :
    (query column rotation).text.toList = column.text.toList ++ (rotationText rotation).toList := by
  simp [text]

/-- The characters of a sum, in brackets. -/
theorem toList_add (a b : Expr) :
    (add a b).text.toList = '(' :: (a.text.toList ++ ' ' :: '+' :: ' ' :: (b.text.toList ++ [')'])) := by
  simp [text]

/-- The characters of a product, without brackets. -/
theorem toList_mul (a b : Expr) : (mul a b).text.toList = a.text.toList ++ ' ' :: '*' :: ' ' :: b.text.toList := by
  simp [text]

/-- The characters of a negation, in brackets behind the sign. -/
theorem toList_neg (a : Expr) : (neg a).text.toList = '-' :: '(' :: (a.text.toList ++ [')']) := by
  simp [text]

/-- The kinds of polynomials by the sign they start with. A product starts as its first factor does. -/
inductive Form where
  | number
  | cell
  | sum
  | opposite
  | product
deriving DecidableEq

/-- The kind of a polynomial. -/
def form : Expr → Form
  | const _ => .number
  | query .. => .cell
  | add .. => .sum
  | neg _ => .opposite
  | mul .. => .product

/-- The kind of a factor that starts with a character. -/
def Form.ofChar (c : Char) : Form :=
  if c.isDigit then .number else if c = '(' then .sum else if c = '-' then .opposite else .cell

/-- The first character of a factor shows its kind. -/
theorem ofChar_head_text {e : Expr} (he : e.form ≠ .product) (rest : List Char) :
    (e.text.toList ++ rest).head?.map Form.ofChar = some e.form := by
  cases e with
  | const x =>
    rw [toList_const]
    cases hdigits : Nat.toDigits 10 x.toNat with
    | nil => exact absurd hdigits Nat.toDigits_ne_nil
    | cons c more =>
      have hc : c.isDigit = true :=
        Nat.isDigit_of_mem_toDigits (by decide) (by decide) (hdigits ▸ List.mem_cons_self : c ∈ Nat.toDigits 10 x.toNat)
      simp [Form.ofChar, hc, form]
  | query column rotation =>
    rw [toList_query, toList_column]
    cases column.kind <;> rfl
  | add a b =>
    rw [toList_add]
    rfl
  | neg a =>
    rw [toList_neg]
    rfl
  | mul a b => exact absurd rfl he

/-! ## Brackets between factors -/

/-- Two polynomials differ in nothing but the bracketing of their products. -/
inductive Rebracketed : Expr → Expr → Prop
  | refl (e : Expr) : Rebracketed e e
  | symm {e f : Expr} (h : Rebracketed e f) : Rebracketed f e
  | trans {e f g : Expr} (h : Rebracketed e f) (h' : Rebracketed f g) : Rebracketed e g
  | assoc (a b c : Expr) : Rebracketed (.mul (.mul a b) c) (.mul a (.mul b c))
  | add {a a' b b' : Expr} (ha : Rebracketed a a') (hb : Rebracketed b b') : Rebracketed (.add a b) (.add a' b')
  | mul {a a' b b' : Expr} (ha : Rebracketed a a') (hb : Rebracketed b b') : Rebracketed (.mul a b) (.mul a' b')
  | neg {a a' : Expr} (ha : Rebracketed a a') : Rebracketed (.neg a) (.neg a')

namespace Rebracketed

variable {e f : Expr}

/-- Other brackets give the same degree. -/
theorem degree_eq (h : Rebracketed e f) : e.degree = f.degree := by
  induction h with
  | refl => rfl
  | symm _ ih => exact ih.symm
  | trans _ _ ih ih' => exact ih.trans ih'
  | assoc a b c => exact Nat.add_assoc _ _ _
  | add _ _ iha ihb => rw [degree, degree, iha, ihb]
  | mul _ _ iha ihb => rw [degree, degree, iha, ihb]
  | neg _ iha => rw [degree, degree, iha]

/-- Other brackets give the same values. -/
theorem eval_eq (h : Rebracketed e f) (read : Column → Int → Felt) : e.eval read = f.eval read := by
  induction h with
  | refl => rfl
  | symm _ ih => exact ih.symm
  | trans _ _ ih ih' => exact ih.trans ih'
  | assoc a b c => exact mul_assoc (a.eval read) (b.eval read) (c.eval read)
  | add _ _ iha ihb => rw [eval, eval, iha, ihb]
  | mul _ _ iha ihb => rw [eval, eval, iha, ihb]
  | neg _ iha => rw [eval, eval, iha]

/-- Other brackets give the same text. -/
theorem text_eq (h : Rebracketed e f) : e.text = f.text := by
  induction h with
  | refl => rfl
  | symm _ ih => exact ih.symm
  | trans _ _ ih ih' => exact ih.trans ih'
  | assoc a b c => simp only [text, String.append_assoc]
  | add _ _ iha ihb => rw [text, text, iha, ihb]
  | mul _ _ iha ihb => rw [text, text, iha, ihb]
  | neg _ iha => rw [text, text, iha]

end Rebracketed

/-- The factors of a polynomial, none of which is a product. -/
def factors : Expr → List Expr
  | mul a b => a.factors ++ b.factors
  | e => [e]

/-- A factor with more factors behind it, bracketed from the right. -/
def product (e : Expr) : List Expr → Expr
  | [] => e
  | f :: rest => mul e (product f rest)

/-- Two chains of factors are one chain, up to brackets. -/
theorem rebracketed_product_append (e : Expr) (xs : List Expr) (f : Expr) (ys : List Expr) :
    Rebracketed (mul (product e xs) (product f ys)) (product e (xs ++ f :: ys)) := by
  induction xs generalizing e with
  | nil => exact .refl _
  | cons x xs ih => exact .trans (.assoc _ _ _) (.mul (.refl e) (ih x))

/-- Chains of factors are rebracketed factor by factor. -/
theorem rebracketed_product {e f : Expr} {xs ys : List Expr} (h : Rebracketed e f) (hs : List.Forall₂ Rebracketed xs ys) :
    Rebracketed (product e xs) (product f ys) := by
  induction hs generalizing e f with
  | nil => exact h
  | cons hx _ ih => exact .mul h (ih hx)

/-- A factor behind another one, with the operator in front. -/
def starred (e : Expr) : List Char :=
  ' ' :: '*' :: ' ' :: e.text.toList

/-- A polynomial is the product of its factors, and its text is their texts with operators between them. -/
theorem exists_factors (e : Expr) :
    ∃ f rest, e.factors = f :: rest ∧ Rebracketed e (product f rest) ∧
      e.text.toList = f.text.toList ++ rest.flatMap starred := by
  induction e with
  | const x => exact ⟨_, [], rfl, .refl _, (List.append_nil _).symm⟩
  | query column rotation => exact ⟨_, [], rfl, .refl _, (List.append_nil _).symm⟩
  | add a b => exact ⟨_, [], rfl, .refl _, (List.append_nil _).symm⟩
  | neg a => exact ⟨_, [], rfl, .refl _, (List.append_nil _).symm⟩
  | mul a b iha ihb =>
    obtain ⟨f, xs, ha, hpa, hta⟩ := iha
    obtain ⟨g, ys, hb, hpb, htb⟩ := ihb
    refine ⟨f, xs ++ g :: ys, ?_, .trans (.mul hpa hpb) (rebracketed_product_append f xs g ys), ?_⟩
    · rw [factors, ha, hb]
      rfl
    · rw [toList_mul, hta, htb, List.flatMap_append, List.flatMap_cons, starred]
      simp only [List.append_assoc, List.cons_append]

/-- No factor is a product. -/
theorem form_of_mem_factors {e f : Expr} (h : f ∈ e.factors) : f.form ≠ .product := by
  induction e with
  | mul a b iha ihb => exact (List.mem_append.mp h).elim iha ihb
  | const | query | add | neg =>
    rw [List.mem_singleton.mp h]
    nofun

/-! ## Reading -/

/-- A factor is read back, up to brackets, in front of what can follow a factor. -/
def Readable (e : Expr) : Prop :=
  ∀ f rest rest', f.form ≠ .product → EndsFactor rest → EndsFactor rest' →
    e.text.toList ++ rest = f.text.toList ++ rest' → Rebracketed e f ∧ rest = rest'

/-- What follows the factors of a list is either the next factor or the end. -/
theorem endsFactor_starred (xs : List Expr) {rest : List Char} (h : EndsWhole rest) :
    EndsFactor (xs.flatMap starred ++ rest) := by
  cases xs with
  | nil => exact h.1
  | cons x xs => exact endsFactor_blank _

/-- Factors are read back one by one, up to the end of the product. -/
theorem starred_cancel {xs ys : List Expr} {rest rest' : List Char} (hreadable : ∀ e ∈ xs, Readable e)
    (hforms : ∀ f ∈ ys, f.form ≠ .product) (hrest : EndsWhole rest) (hrest' : EndsWhole rest')
    (h : xs.flatMap starred ++ rest = ys.flatMap starred ++ rest') : List.Forall₂ Rebracketed xs ys ∧ rest = rest' := by
  induction xs generalizing ys with
  | nil =>
    cases ys with
    | nil => exact ⟨.nil, h⟩
    | cons y ys => exact absurd h (hrest.2 _)
  | cons x xs ih =>
    cases ys with
    | nil => exact absurd h.symm (hrest'.2 _)
    | cons y ys =>
      rw [List.forall_mem_cons] at hreadable hforms
      simp only [List.flatMap_cons, starred, List.cons_append, List.append_assoc, List.cons.injEq, true_and] at h
      obtain ⟨hxy, h⟩ := hreadable.1 y _ _ hforms.1 (endsFactor_starred xs hrest) (endsFactor_starred ys hrest') h
      obtain ⟨hrests, hend⟩ := ih hreadable.2 hforms.2 h
      exact ⟨.cons hxy hrests, hend⟩

/-- A polynomial whose factors are read back is read back in front of what can follow a polynomial. -/
theorem whole_cancel {e f : Expr} {rest rest' : List Char} (he : ∀ g ∈ e.factors, Readable g) (hrest : EndsWhole rest)
    (hrest' : EndsWhole rest') (h : e.text.toList ++ rest = f.text.toList ++ rest') : Rebracketed e f ∧ rest = rest' := by
  obtain ⟨x, xs, hxs, hex, htext⟩ := e.exists_factors
  obtain ⟨y, ys, hys, hfy, htext'⟩ := f.exists_factors
  have hforms : ∀ g ∈ y :: ys, g.form ≠ .product := fun g hg => form_of_mem_factors (e := f) (hys ▸ hg)
  rw [hxs] at he
  rw [List.forall_mem_cons] at he hforms
  rw [htext, htext', List.append_assoc, List.append_assoc] at h
  obtain ⟨hxy, h⟩ := he.1 y _ _ hforms.1 (endsFactor_starred xs hrest) (endsFactor_starred ys hrest') h
  obtain ⟨hrests, hend⟩ := starred_cancel he.2 hforms.2 hrest hrest' h
  exact ⟨.trans hex (.trans (rebracketed_product hxy hrests) hfy.symm), hend⟩

/-- Two factors whose texts begin alike are of one kind. -/
theorem form_eq_of_text {e f : Expr} {rest rest' : List Char} (h : e.text.toList ++ rest = f.text.toList ++ rest')
    (he : e.form ≠ .product) (hf : f.form ≠ .product) : e.form = f.form := by
  rw [← Option.some_inj, ← ofChar_head_text he rest, h, ofChar_head_text hf]

/-- Every factor of a polynomial is read back. The induction is on the tree; the brackets of a sum or an opposite are closed
behind polynomials that are read back as a whole. -/
theorem readable_factors (e : Expr) : ∀ g ∈ e.factors, Readable g := by
  induction e with
  | mul a b iha ihb => exact fun g hg => (List.mem_append.mp hg).elim (iha g) (ihb g)
  | const x =>
    refine List.forall_mem_singleton.mpr fun f rest rest' hf hrest hrest' h => ?_
    have hform := form_eq_of_text h nofun hf
    cases f <;> cases hform
    rw [toList_const, toList_const] at h
    obtain ⟨hvalue, hends⟩ := digits_cancel hrest.noDigit hrest'.noDigit h
    exact ⟨Felt.ext_toNat hvalue ▸ .refl _, hends⟩
  | query column rotation =>
    refine List.forall_mem_singleton.mpr fun f rest rest' hf hrest hrest' h => ?_
    have hform := form_eq_of_text h nofun hf
    cases f <;> cases hform
    rw [toList_query, toList_query, List.append_assoc, List.append_assoc] at h
    obtain ⟨hcolumn, h⟩ := column_cancel h
    obtain ⟨hrotation, hends⟩ := rotation_cancel hrest hrest' h
    exact ⟨hcolumn ▸ hrotation ▸ .refl _, hends⟩
  | add a b iha ihb =>
    refine List.forall_mem_singleton.mpr fun f rest rest' hf _ _ h => ?_
    have hform := form_eq_of_text h nofun hf
    cases f <;> cases hform
    simp only [toList_add, List.cons_append, List.append_assoc, List.cons.injEq, true_and] at h
    obtain ⟨ha, h⟩ := whole_cancel iha (endsWhole_plus _) (endsWhole_plus _) h
    simp only [List.cons.injEq, true_and] at h
    obtain ⟨hb, h⟩ := whole_cancel ihb (endsWhole_close _) (endsWhole_close _) h
    exact ⟨.add ha hb, (List.cons.inj h).2⟩
  | neg a iha =>
    refine List.forall_mem_singleton.mpr fun f rest rest' hf _ _ h => ?_
    have hform := form_eq_of_text h nofun hf
    cases f <;> cases hform
    simp only [toList_neg, List.cons_append, List.append_assoc, List.cons.injEq, true_and] at h
    obtain ⟨ha, h⟩ := whole_cancel iha (endsWhole_close _) (endsWhole_close _) h
    exact ⟨.neg ha, (List.cons.inj h).2⟩

/-! ## What a text says -/

/-- The text of a polynomial shows it up to the brackets between factors. -/
theorem text_eq_iff (e f : Expr) : e.text = f.text ↔ Rebracketed e f := by
  refine ⟨fun h => ?_, Rebracketed.text_eq⟩
  have htext : e.text.toList ++ [] = f.text.toList ++ [] := by rw [h]
  exact (whole_cancel e.readable_factors endsWhole_nil endsWhole_nil htext).1

/-- Polynomials with one text have one degree, and one value whatever the cells are. -/
theorem meaning_of_text {e f : Expr} (h : e.text = f.text) : e.degree = f.degree ∧ ∀ read, e.eval read = f.eval read := by
  have hbrackets := (text_eq_iff e f).mp h
  exact ⟨hbrackets.degree_eq, hbrackets.eval_eq⟩

/-- A product of a rotated cell, a sum and an opposite, bracketed from the left and from the right. -/
theorem meaning_of_text_bracketed :
    let a := Column.next ⟨.advice, 0⟩
    let b := Column.cur ⟨.fixed, 1⟩ + Expr.ofNat 3
    let c := -Column.prev ⟨.publicInput, 2⟩
    (a * b * c).text = (a * (b * c)).text ∧ (a * b * c).degree = (a * (b * c)).degree ∧
      ∀ read, (a * b * c).eval read = (a * (b * c)).eval read := by
  intro a b c
  have htext : (a * b * c).text = (a * (b * c)).text := (Rebracketed.assoc a b c).text_eq
  exact ⟨htext, meaning_of_text htext⟩

end Expr

end ScriptCircuit
