import Mathlib
import ScriptCircuit.Document
import ScriptCircuit.Proofs.Script.Run

/-!
# The rows of a trace document

A document of a trace leaves rows out, and can do so because the rows behind the script repeat each other up to the last one:
from what is listed every row of the trace is known, an unlisted one as the listed one before it. What an object holds under a
key is what was put there last.
-/

namespace ScriptCircuit

/-! ## Fields of an object -/

namespace Json

/-- The first field of a name is the one found. -/
theorem lookup_cons_ite (key name : String) (value : Json) (rest : List (String × Json)) :
    ((key, value) :: rest).lookup name = if name = key then some value else rest.lookup name := by
  by_cases h : name = key
  · subst h
    rw [if_pos rfl, List.lookup_cons_self]
  · rw [if_neg h, List.lookup_cons, beq_false_of_ne h]

/-- An inserted field is found under its key, and hides nothing else. -/
theorem lookup_insertField (key name : String) (value : Json) (fields : List (String × Json)) :
    (insertField key value fields).lookup name = if name = key then some value else fields.lookup name := by
  induction fields with
  | nil => exact lookup_cons_ite ..
  | cons field rest ih =>
    obtain ⟨k, v⟩ := field
    rw [insertField]
    by_cases hsame : key = k
    · subst hsame
      rw [if_pos rfl, lookup_cons_ite, lookup_cons_ite]
      by_cases h : name = key
      · rw [if_pos h, if_pos h]
      · rw [if_neg h, if_neg h, if_neg h]
    · rw [if_neg hsame]
      by_cases hbefore : key < k
      · rw [if_pos hbefore, lookup_cons_ite]
      · rw [if_neg hbefore, lookup_cons_ite, lookup_cons_ite, ih]
        by_cases h : name = key
        · subst h
          rw [if_neg hsame, if_pos rfl, if_pos rfl]
        · rw [if_neg h, if_neg h]

/-- The object of a list of fields holds under a key what the list has there last. -/
theorem field?_ofFields (name : String) (fields : List (String × Json)) :
    (ofFields fields).field? name = fields.reverse.lookup name := by
  have hfold : ∀ start : List (String × Json),
      (fields.foldl (fun fields field => insertField field.1 field.2 fields) start).lookup name =
        (fields.reverse ++ start).lookup name := by
    induction fields with
    | nil => exact fun _ => rfl
    | cons field rest ih =>
      intro start
      rw [List.foldl_cons, ih, List.reverse_cons, List.append_assoc, List.lookup_append, List.lookup_append,
        lookup_insertField, List.singleton_append, lookup_cons_ite]
  have hempty := hfold []
  rw [List.append_nil] at hempty
  exact hempty

end Json

namespace Document

/-- A row is listed with its number. -/
theorem number_row (index : Nat) (r : Row) : (row index r).field? "row" = some (.ofNat index) := by
  rw [row, Json.field?_ofFields]
  rfl

/-! ## Listed rows -/

/-- The listed rows are those of the script, the one behind it and the last one. -/
theorem mem_listedRows {n i : Nat} : i ∈ listedRows n ↔ i ≤ min (n + 1) maxScriptSize ∨ i = maxScriptSize + 1 := by
  rw [listedRows, List.mem_append, List.mem_range, List.mem_singleton, Nat.lt_succ_iff]

/-- The listed rows are in order. -/
theorem pairwise_listedRows (n : Nat) : (listedRows n).Pairwise (· < ·) := by
  refine List.pairwise_append.mpr ⟨List.pairwise_lt_range, List.pairwise_singleton _ _, fun i hi j hj => ?_⟩
  rw [List.mem_range] at hi
  rw [List.mem_singleton] at hj
  omega

/-- Between the script and the last row a trace repeats one row. -/
theorem rowAt_behind {r : Felt} {script : List UInt8} {states : Nat → State} {i : Nat} (hbehind : script.length < i)
    (hlast : i ≠ maxScriptSize + 1) : Trace.rowAt r script states i = .padding (states script.length) Opcode.nop := by
  rw [Trace.rowAt, if_neg (by omega), dif_neg (by omega), if_neg hlast]

/-- The documents of the rows that are listed. -/
theorem rows_trace (t : Trace) :
    (trace t).field? "rows" = some (.array ((listedRows t.script.length).filterMap fun i => t.rows[i]?.map (row i))) := by
  rw [trace, Json.field?_ofFields]
  simp only [List.getElem?_toArray]
  rfl

/-- A document lists the rows of a trace with these numbers, and with them shows all rows. -/
structure ShowsRows (doc : Json) (t : Trace) (scriptLength : Nat) (numbers : List Nat) : Prop where
  /-- every entry has its number and is the document of the row with that number -/
  listed : ∃ entries, doc.field? "rows" = some (.array entries) ∧
    List.Forall₂ (fun i entry => entry.field? "row" = some (.ofNat i) ∧ ∃ r, t.rows[i]? = some r ∧ entry = row i r)
      numbers entries
  increasing : numbers.Pairwise (· < ·)
  first : numbers.head? = some 0
  last : numbers.getLast? = some 521
  /-- the row before the script and the rows of all its bytes are listed -/
  script : ∀ i ≤ scriptLength, i ∈ numbers
  /-- a row that is not listed is the same as the nearest listed row before it -/
  repeated : ∀ i < t.rows.length, i ∉ numbers →
    ∃ j ∈ numbers, j < i ∧ (∀ k ∈ numbers, k < i → k ≤ j) ∧ t.rows[i]? = t.rows[j]?

/-- The document of a trace loses no row: it lists rows in the order of their numbers, from the first to the last one and with
the row of every byte between them, each as it is in the trace; and a row that it does not list is the same as the nearest
listed row before it. -/
theorem trace_loses_no_row {script : List UInt8} {r : Felt} {stack : Stack} {items : List Item} {t : Trace}
    (h : Trace.ofStack script r stack = .ok t ∨ Trace.ofItems script r items = .ok t) :
    ∃ numbers, ShowsRows (trace t) t script.length numbers := by
  obtain ⟨stack', hstack⟩ : ∃ stack', Trace.ofStack script r stack' = .ok t := by
    rcases h with h | h
    · exact ⟨stack, h⟩
    · obtain ⟨stack', -, h⟩ := MatrixAux.except_bind_eq_ok.mp h
      exact ⟨stack', h⟩
  obtain ⟨hfit, states, -, -, -, ⟨hscript, -⟩, hlength, hrows⟩ := Trace.ofStack_eq_ok.mp hstack
  have hsize : maxScriptSize = 520 := rfl
  have hall : traceRows = 522 := rfl
  have hrow : ∀ i ∈ listedRows script.length, t.rows[i]? = some (Trace.rowAt r script states i) := by
    intro i hi
    have hi' := mem_listedRows.mp hi
    exact hrows i (by omega)
  have hdocs : ((listedRows script.length).filterMap fun i => t.rows[i]?.map (row i)) =
      (listedRows script.length).map fun i => row i (Trace.rowAt r script states i) := by
    rw [← List.filterMap_eq_map]
    refine List.filterMap_congr fun i hi => ?_
    rw [hrow i hi]
    rfl
  refine ⟨listedRows script.length, ?listed, pairwise_listedRows _, ?first, ?last, ?script, ?repeated⟩
  case listed =>
    refine ⟨_, hscript ▸ rows_trace t, ?_⟩
    rw [hdocs, List.forall₂_map_right_iff, List.forall₂_same]
    exact fun i hi => ⟨number_row .., _, hrow i hi, rfl⟩
  case first =>
    rw [listedRows, List.range_succ_eq_map]
    rfl
  case last =>
    rw [listedRows, List.getLast?_concat]
    rfl
  case script =>
    intro i hi
    exact mem_listedRows.mpr (by omega)
  case repeated =>
    intro i hi hunlisted
    rw [mem_listedRows] at hunlisted
    -- The nearest listed row is the first one behind the script.
    refine ⟨script.length + 1, mem_listedRows.mpr (by omega), by omega, ?_, ?_⟩
    · intro k hk hki
      have hk' := mem_listedRows.mp hk
      omega
    · rw [hrows i (by omega), hrows (script.length + 1) (by omega), rowAt_behind (by omega) (by omega),
        rowAt_behind (by omega) (by omega)]

/-- A script of no-operations has a trace. -/
theorem exists_ofStack_nops (n : Nat) (h : n ≤ maxScriptSize) (r : Felt) (stack : Stack) :
    ∃ t, Trace.ofStack (List.replicate n Opcode.nop) r stack = .ok t := by
  let states : Nat → State := fun _ => .initial r stack
  have hsteps : State.Steps (List.replicate n Opcode.nop) states := by
    intro i hi
    rw [List.getElem_replicate]
    exact State.next_eq_ok.mpr (.unclassified rfl (by decide))
  obtain ⟨rows, hlength, hrows⟩ : ∃ rows : List Row, rows.length = traceRows ∧
      ∀ i, i < traceRows → rows[i]? = some (Trace.rowAt r (List.replicate n Opcode.nop) states i) := by
    refine ⟨(List.range traceRows).map (Trace.rowAt r (List.replicate n Opcode.nop) states), ?_, fun i hi => ?_⟩
    · rw [List.length_map, List.length_range]
    · rw [List.getElem?_map, List.getElem?_range hi]
      rfl
  exact ⟨⟨_, r, _, rows⟩, Trace.ofStack_eq_ok.mpr
    ⟨List.length_replicate.trans_le h, states, rfl, hsteps, rfl, ⟨rfl, rfl, rfl⟩, hlength, hrows⟩⟩

/-- Of a script of 518 bytes one row is not listed, the one before the last. -/
theorem trace_loses_no_row_nops : ∃ t, Trace.ofStack (List.replicate 518 Opcode.nop) 7 .empty = .ok t ∧
    ∃ numbers, ShowsRows (trace t) t 518 numbers := by
  obtain ⟨t, ht⟩ := exists_ofStack_nops 518 (by decide) 7 .empty
  have hrows := trace_loses_no_row (.inl ht : _ ∨ Trace.ofItems _ 7 [] = .ok t)
  rw [List.length_replicate] at hrows
  exact ⟨t, ht, hrows⟩

end Document

end ScriptCircuit
