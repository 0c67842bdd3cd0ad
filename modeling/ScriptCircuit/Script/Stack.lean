import ScriptCircuit.Error

/-!
# The stack

A stack always has the same number of slots, slot 0 on top; a slot without an item holds zero. Pushing onto it drops what
the bottom slot holds, popping fills the bottom slot with zero, so every state of a run has the same shape.
-/

namespace ScriptCircuit

/-- A stack: its slots from the top. -/
abbrev Stack := Vector Felt stackDepth

namespace Stack

/-- The stack without items. -/
def empty : Stack :=
  .replicate stackDepth 0

/-- Moves every slot one down and puts an element on top. -/
def push (s : Stack) (x : Felt) : Stack :=
  .ofFn fun i => if i.val = 0 then x else s[i.val - 1]

/-- Moves every slot one up. -/
def pop (s : Stack) : Stack :=
  .ofFn fun i => if h : i.val + 1 < stackDepth then s[i.val + 1] else 0

/-- The element on top. -/
def top (s : Stack) : Felt :=
  getElem s 0 stackDepth_pos

/-- Replaces the element on top. -/
def setTop (s : Stack) (x : Felt) : Stack :=
  s.set 0 x stackDepth_pos

/-- The element at a depth, zero being the top. -/
def peek (s : Stack) (depth : Nat) : Except Error Felt :=
  match s[depth]? with
  | some x => pure x
  | none => throw (.stackDepth depth)

/-- The stack with these elements from the top and zero below. -/
def ofList (elements : List Felt) : Stack :=
  .ofFn fun i => elements.getD i.val 0

/-- After a push the slots read the new item and then the slots before. -/
theorem getElem_push (s : Stack) (x : Felt) (i : Nat) (h : i < stackDepth) :
    (s.push x)[i] = if i = 0 then x else s[i - 1] := by
  simp [push]

/-- After a pop every slot reads the slot below it, and the bottom slot reads zero. -/
theorem getElem_pop (s : Stack) (i : Nat) (h : i < stackDepth) :
    (s.pop)[i] = if below : i + 1 < stackDepth then s[i + 1] else 0 := by
  simp [pop]

/-- The slots of a list read its items and then zero. -/
theorem getElem_ofList (elements : List Felt) (i : Nat) (h : i < stackDepth) :
    (ofList elements)[i] = elements.getD i 0 := by
  simp [ofList]

end Stack

end ScriptCircuit
