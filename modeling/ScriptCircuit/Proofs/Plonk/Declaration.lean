import Mathlib
import ScriptCircuit.Proofs.Plonk.ByteRange
import ScriptCircuit.Proofs.Plonk.Frame

/-!
# Declared decompositions

In a system that has what the declaration of a decomposition added, the decomposition has five columns of its own and its
constraints are checked. A call ends well exactly when the value fits into the bits and there is room; a call that fails
halfway has written nothing but columns of the decomposition.
-/

namespace ScriptCircuit

/-- A system has all that another one declares. -/
structure System.Contains (sys part : System) : Prop where
  count : ∀ kind, part.count kind ≤ sys.count kind
  equality : part.equality ⊆ sys.equality
  gates : part.gates ⊆ sys.gates
  lookups : part.lookups ⊆ sys.lookups

namespace ByteRange

/-- The columns of a decomposition and its table. -/
def owned (b : ByteRange) : List Column :=
  b.table :: b.columns

/-- The decomposition has been declared, and the system has all that was declared then. -/
def DeclaredIn (b : ByteRange) (sys : System) : Prop :=
  ∃ before part, configure.run before = (b, part) ∧ sys.Contains part

/-- A decomposition with columns of its own in a system that has its constraints. -/
structure Declared (b : ByteRange) (sys : System) : Prop where
  proper : b.Proper
  fixed_kind : ∀ c ∈ [b.step, b.stop, b.table], c.kind = .fixed
  nodup : b.owned.Nodup
  index_lt : ∀ c ∈ b.owned, c.index < sys.count c.kind
  linked : sys.equalityEnabled b.runningSum = true
  gates : b.gates ⊆ sys.gates
  lookups : b.lookups ⊆ sys.lookups

/-- What was declared is a decomposition with columns of its own, however the system has grown since. -/
theorem DeclaredIn.declared {b : ByteRange} {sys : System} (h : b.DeclaredIn sys) : b.Declared sys := by
  obtain ⟨before, part, hconfigure, hcount, hequality, hgates, hlookups⟩ := h
  obtain ⟨hb, rfl⟩ := Prod.mk.inj hconfigure
  have hadvice : before.adviceCount + 2 ≤ sys.adviceCount := hcount .advice
  have hfixed : before.fixedCount + 3 ≤ sys.fixedCount := hcount .fixed
  have hsum : b.runningSum ∈ sys.equality := by
    rw [← hb]
    exact hequality (List.mem_insert_of_mem List.mem_insert_self)
  have hgate : b.gates ⊆ sys.gates := by
    rw [← hb]
    exact fun g hg => hgates (List.mem_append_right _ hg)
  have hlookup : b.lookups ⊆ sys.lookups := by
    rw [← hb]
    exact fun l hl => hlookups (List.mem_append_right _ hl)
  have hcolumns : b = ⟨⟨.advice, before.adviceCount⟩, ⟨.advice, before.adviceCount + 1⟩, ⟨.fixed, before.fixedCount⟩,
      ⟨.fixed, before.fixedCount + 1⟩, ⟨.fixed, before.fixedCount + 2⟩⟩ := hb.symm
  refine ⟨?_, ?_, ?_, ?_, List.contains_iff_mem.mpr hsum, hgate, hlookup⟩
  · rw [hcolumns]
    exact ⟨rfl, rfl⟩
  · rw [hcolumns]
    simp
  · rw [hcolumns]
    simp [owned, columns]
  · rw [hcolumns]
    simp only [owned, columns, List.forall_mem_cons, List.not_mem_nil, false_implies, implies_true, and_true, System.count]
    omega

/-- The matrix of the system has the columns. -/
theorem Declared.hasColumn {b : ByteRange} {sys : System} (hb : b.Declared sys) (rows : Nat) :
    ∀ c ∈ b.owned, (Matrix.zero sys rows).HasColumn c := by
  intro c hc
  refine (Matrix.hasColumn_zero sys rows c).mpr ⟨fun hkind => ?_, hb.index_lt c hc⟩
  have hfixed := hb.fixed_kind
  simp only [owned, columns, List.mem_cons, List.not_mem_nil, or_false] at hc
  simp only [List.forall_mem_cons, List.not_mem_nil, false_implies, implies_true, and_true] at hfixed
  rcases hc with rfl | rfl | rfl | rfl | rfl
  · cases hkind.symm.trans hfixed.2.2
  · cases hkind.symm.trans hb.proper.sum_kind
  · cases hkind.symm.trans hb.proper.byte_kind
  · cases hkind.symm.trans hfixed.1
  · cases hkind.symm.trans hfixed.2.1

/-- The mark of the recurrence is none of the other columns. -/
theorem Declared.step_fresh {b : ByteRange} {sys : System} (hb : b.Declared sys) : b.step ∉ [b.runningSum, b.byte, b.stop] := by
  have hnodup := hb.nodup
  simp only [owned, columns, List.nodup_cons, List.mem_cons, List.not_mem_nil, or_false, not_or] at hnodup ⊢
  obtain ⟨-, ⟨-, hsum, -⟩, ⟨hbyte, -⟩, hstop, -⟩ := hnodup
  exact ⟨Ne.symm hsum, Ne.symm hbyte, hstop⟩

/-- The mark of the end is none of the other columns. -/
theorem Declared.stop_fresh {b : ByteRange} {sys : System} (hb : b.Declared sys) : b.stop ∉ [b.runningSum, b.byte, b.step] := by
  have hnodup := hb.nodup
  simp only [owned, columns, List.nodup_cons, List.mem_cons, List.not_mem_nil, or_false, not_or] at hnodup ⊢
  obtain ⟨-, ⟨-, -, hsum⟩, ⟨-, hbyte⟩, hstep, -⟩ := hnodup
  exact ⟨Ne.symm hsum, Ne.symm hbyte, Ne.symm hstep⟩

/-- The numbers of bits of a decomposition: 8, 16, …, 56. -/
def WholeBytes (bits : Nat) : Prop :=
  0 < bits ∧ bits % 8 = 0 ∧ bits < 64

variable {b : ByteRange} {sys : System} {offset bits : Nat} {source : AssignedCell}

/-- What a decomposition writes stands in its columns. -/
theorem Writes.mem_columns {x : Column × Nat × Felt} (h : b.Writes x) : x.1 ∈ b.columns := by
  simp only [columns, List.mem_cons, List.not_mem_nil, or_false]
  rcases h with (h | h) | ⟨h | h, -⟩
  · exact .inl h
  · exact .inr (.inl h)
  · exact .inr (.inr (.inl h))
  · exact .inr (.inr (.inr h))

/-- The cells of a decomposition fit when its last row does. -/
theorem Declared.fits_sumCells (hb : b.Declared sys) {s : Filling} (hinside : s.region.Inside s.matrix)
    (hcolumns : ∀ c ∈ b.owned, s.matrix.HasColumn c) :
    (∀ x ∈ b.sumCells offset source bits, s.Fits x.1 x.2.1) ↔ offset + bits / 8 < s.region.height := by
  constructor
  · intro h
    exact (h _ ((marks_sumStop hb.stop_fresh offset source bits (offset + bits / 8) 1).mpr ⟨rfl, rfl⟩)).1
  · intro h x hx
    obtain ⟨hwrites, -, hhigh⟩ := sumCells_bounds hx
    exact hinside.fits (hcolumns _ (List.mem_cons_of_mem _ hwrites.mem_columns)) (Nat.lt_of_le_of_lt hhigh h)

/-- A decomposition ends well exactly when the value fits, the rows fit and the source takes part in copy constraints. -/
theorem Declared.ends_decompose (hb : b.Declared sys) {s s' : Filling} (hinside : s.region.Inside s.matrix)
    (hcolumns : ∀ c ∈ b.owned, s.matrix.HasColumn c) {bytes : List AssignedCell} :
    (b.decompose sys offset source 8 bits).Ends s bytes s' ↔
      (WholeBytes bits ∧ source.value.toNat < 2 ^ bits) ∧
        (offset + bits / 8 < s.region.height ∧ sys.equalityEnabled source.cell.column = true) ∧
          bytes = b.bytesFrom s.region.start offset source.value.toNat (bits / 8) ∧
            s' = s.after (b.sumCells offset source bits) [(source.cell, b.runningSum, offset)] := by
  have hwhole : WholeBytes bits ↔ ¬(bits = 0 ∨ bits % 8 ≠ 0 ∨ 64 ≤ bits) := by
    unfold WholeBytes
    omega
  have hsmall : source.value.toNat < 2 ^ bits ↔ source.value.toNat >>> bits = 0 := by
    rw [Nat.shiftRight_eq_div_pow, Nat.div_eq_zero_iff_lt (Nat.two_pow_pos bits)]
  by_cases hbits : WholeBytes bits
  · by_cases hfits : source.value.toNat < 2 ^ bits
    · have hdoes : (b.decompose sys offset source 8 bits).Ends s bytes s' ↔ _ :=
        hb.proper.does_decompose offset source (hwhole.mp hbits) (hsmall.mp hfits) s bytes s'
      have hlinks : (∀ x ∈ [(source.cell, b.runningSum, offset)], sys.Links x.1.column x.2.1) ↔
          sys.equalityEnabled source.cell.column = true :=
        List.forall_mem_singleton.trans (and_iff_left hb.linked)
      rw [hdoes, hb.fits_sumCells hinside hcolumns, hlinks, and_iff_right (And.intro hbits hfits), and_assoc]
    · refine iff_of_false (fun hends => ?_) fun h => hfits h.1.2
      unfold decompose at hends
      rw [if_neg (not_not_intro rfl), if_neg (hwhole.mp hbits), if_pos (fun h => hfits (hsmall.mpr h))] at hends
      cases hends
  · refine iff_of_false (fun hends => ?_) fun h => hbits h.1.1
    unfold decompose at hends
    rw [if_neg (not_not_intro rfl), if_pos (not_not.mp fun h => hbits (hwhole.mpr h))] at hends
    cases hends

/-- Assigning bytes writes cells of decompositions only. -/
theorem confined_assignBytes (b : ByteRange) (offset value count : Nat) :
    (b.assignBytes offset value count).Confined sys b.Writes := by
  have hsum : ∀ row x, b.Writes (b.runningSum, row, x) := fun _ _ => .inl (.inl rfl)
  have hbyte : ∀ row x, b.Writes (b.byte, row, x) := fun _ _ => .inl (.inr rfl)
  have hstep : ∀ row, b.Writes (b.step, row, 1) := fun _ => .inr ⟨.inl rfl, rfl⟩
  have hstop : ∀ row, b.Writes (b.stop, row, 1) := fun _ => .inr ⟨.inr rfl, rfl⟩
  induction count generalizing offset value with
  | zero => exact (Fill.confined_enable offset hstop).bind fun _ => Fill.confined_pure []
  | succ count ih =>
    exact (Fill.confined_enable offset hstep).bind fun _ =>
      (Fill.confined_assignAdvice offset fun row => hbyte row _).bind fun _ =>
        (Fill.confined_assignAdvice (offset + 1) fun row => hsum row _).discard.bind fun _ =>
          (ih (offset + 1) (value / 256)).bind fun _ => Fill.confined_pure _

/-- However it ends, a decomposition writes its own columns, and its marks are ones. -/
theorem confined_decompose (b : ByteRange) (sys : System) (offset : Nat) (source : AssignedCell) (width bits : Nat) :
    (b.decompose sys offset source width bits).Confined sys b.Writes := by
  have hsum : ∀ row, b.Writes (b.runningSum, row, source.value) := fun _ => .inl (.inl rfl)
  unfold decompose
  by_cases hwidth : width ≠ 8
  · rw [if_pos hwidth]
    exact Fill.confined_quiet fun _ => rfl
  · rw [if_neg hwidth]
    by_cases hbits : bits = 0 ∨ bits % 8 ≠ 0 ∨ 64 ≤ bits
    · rw [if_pos hbits]
      exact Fill.confined_quiet fun _ => rfl
    · rw [if_neg hbits]
      by_cases hvalue : source.value.toNat >>> bits ≠ 0
      · rw [if_pos hvalue]
        exact Fill.confined_quiet fun _ => rfl
      · rw [if_neg hvalue]
        exact (Fill.confined_copyAdvice source offset hsum).discard.bind fun _ =>
          b.confined_assignBytes offset source.value.toNat (bits / 8)

end ByteRange

end ScriptCircuit
