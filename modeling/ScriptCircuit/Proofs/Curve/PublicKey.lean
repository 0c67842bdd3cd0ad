import Mathlib
import ScriptCircuit.Curve.PublicKey
import ScriptCircuit.Proofs.Bytes.Word
import ScriptCircuit.Proofs.Plonk.Matrix

/-!
# Serial forms of public keys

A key that is read from bytes has these bytes for a serial form, the short one for 33 of them and the one with both
coordinates for 65.
-/

namespace ScriptCircuit

open Curve MatrixAux

namespace PublicKey

/-- The word of a coordinate has its number. -/
theorem toNat_ofNat_coordinate (x : Coordinate) : (BitVec.ofNat 256 x.val).toNat = x.val := by
  refine (BitVec.toNat_ofNat _ _).trans (Nat.mod_eq_of_lt (x.isLt.trans ?_))
  decide

/-- A coordinate is read back from its word. -/
theorem ofNat_toNat_coordinate (x : Coordinate) : Fin.ofNat prime (BitVec.ofNat 256 x.val).toNat = x := by
  rw [toNat_ofNat_coordinate]
  exact Fin.ext (Nat.mod_eq_of_lt x.isLt)

/-- The length check passes for the expected length. -/
theorem checkLength_eq_ok {first : UInt8} {bytes : List UInt8} {expected : Nat} {u : Unit} :
    checkLength first bytes expected = .ok u ↔ bytes.length = expected := by
  unfold checkLength
  split <;> simp_all [throw, throwThe, MonadExceptOf.throw, pure, Except.pure]

/-- A key is made of the coordinates of a point. -/
theorem ofPoint?_eq_ok {p : Option Point} {key : PublicKey} :
    ofPoint? p = .ok key ↔ ∃ x y, p = some (.affine x y) ∧ key = ⟨.ofNat 256 x.val, .ofNat 256 y.val⟩ := by
  cases p with
  | none => simp [ofPoint?, throw, throwThe, MonadExceptOf.throw]
  | some p =>
    cases p with
    | infinity => simp [ofPoint?, ofPoint, throw, throwThe, MonadExceptOf.throw]
    | affine x y => simp [ofPoint?, ofPoint, pure, Except.pure, eq_comm]

/-- A decompressed point lies on the curve, with the first coordinate and the parity that were asked for. -/
theorem decompress?_eq_some {odd : Bool} {n : Nat} {p : Point} (h : decompress? odd n = some p) :
    p.onCurve = true ∧ ∃ x y, p = .affine x y ∧ x.val = n ∧ isOddValue y = odd := by
  unfold decompress? at h
  split at h
  · obtain ⟨hpoint, h⟩ := Option.ite_none_right_eq_some.mp h
    cases h
    exact ⟨hpoint.1, _, _, rfl, rfl, hpoint.2⟩
  · cases h

/-- A point read from both coordinates lies on the curve and has these. -/
theorem full?_eq_some {n m : Nat} {p : Point} (h : full? n m = some p) :
    p.onCurve = true ∧ ∃ x y, p = .affine x y ∧ x.val = n ∧ y.val = m := by
  unfold full? at h
  split at h
  · obtain ⟨hpoint, h⟩ := Option.ite_none_right_eq_some.mp h
    cases h
    exact ⟨hpoint, _, _, rfl, rfl, rfl⟩
  · cases h

/-- A key is read from a short form that decompresses or from both coordinates of a point. -/
theorem parse_cons_eq_ok {first : UInt8} {rest : List UInt8} {key : PublicKey} :
    parse (first :: rest) = .ok key ↔
      (first = evenForm ∨ first = oddForm) ∧ rest.length = 32 ∧
          ofPoint? (decompress? (first = oddForm) (Word.natOfBytes rest)) = .ok key ∨
        first = fullForm ∧ rest.length = 64 ∧
          ofPoint? (full? (Word.natOfBytes (rest.take 32)) (Word.natOfBytes (rest.drop 32))) = .ok key := by
  have hshort : ∀ {first : UInt8}, first = fullForm → ¬(first = evenForm ∨ first = oddForm) := by
    rintro _ rfl
    decide
  have hlength : ∀ {n : Nat} {p : Option Point},
      (checkLength first (first :: rest) (n + 1) >>= fun _ => ofPoint? p) = .ok key ↔ rest.length = n ∧ ofPoint? p = .ok key := by
    intro n p
    rw [except_bind_eq_ok]
    simp [checkLength_eq_ok]
  unfold parse
  dsimp only
  split
  next h => rw [hlength, and_iff_right h, or_iff_left fun hfull => hshort hfull.1 h]
  next h =>
    rw [or_iff_right fun hform => h hform.1]
    split
    next hfull => rw [hlength, and_iff_right hfull]
    next hfull => exact iff_of_false (fun h => by cases h) fun h => hfull h.1

/-- A point that was looked for is not at infinity. -/
theorem decompress?_ne_infinity (odd : Bool) (n : Nat) : decompress? odd n ≠ some .infinity := by
  intro h
  obtain ⟨-, x, y, hpoint, -⟩ := decompress?_eq_some h
  cases hpoint

/-- No coordinates give the point at infinity. -/
theorem full?_ne_infinity (n m : Nat) : full? n m ≠ some .infinity := by
  intro h
  obtain ⟨-, x, y, hpoint, -⟩ := full?_eq_some h
  cases hpoint

/-- A key that cannot be read is empty, has an unknown first byte or the wrong length for it, or is no point of the curve. -/
theorem parse_error_cases {bytes : List UInt8} {e : Error} (h : parse bytes = .error e) :
    e = .keyEmpty ∨ (∃ first, e = .keyForm first) ∨ (∃ first expected actual, e = .keyLength first expected actual) ∨
      e = .keyOffCurve := by
  have hread : ∀ {first : UInt8} {expected : Nat} {p : Option Point}, p ≠ some .infinity →
      (checkLength first bytes expected >>= fun _ => ofPoint? p) = .error e →
        (∃ first expected actual, e = .keyLength first expected actual) ∨ e = .keyOffCurve := by
    intro first expected p hp h
    obtain h | ⟨u, -, h⟩ := except_bind_eq_error.mp h
    · unfold checkLength at h
      split at h
      · cases h
      · cases h
        exact .inl ⟨_, _, _, rfl⟩
    · match p, hp with
      | none, _ =>
        cases h
        exact .inr rfl
      | some .infinity, hp => exact absurd rfl hp
      | some (.affine ..), _ => cases h
  unfold parse at h
  split at h
  next =>
    cases h
    exact .inl rfl
  next first rest =>
    split at h
    next => exact .inr (.inr (hread (decompress?_ne_infinity _ _) h))
    next =>
      split at h
      next => exact .inr (.inr (hread (full?_ne_infinity _ _) h))
      next =>
        cases h
        exact .inr (.inl ⟨first, rfl⟩)

/-- A key that is read from bytes has them for its short serial form, or for the one with both coordinates. -/
theorem serialize_of_parse {bytes : List UInt8} {key : PublicKey} (h : parse bytes = .ok key) :
    bytes.length = 33 ∧ bytes = key.serialize true ∨ bytes.length = 65 ∧ bytes = key.serialize false := by
  cases bytes with
  | nil => cases h
  | cons first rest =>
    rcases parse_cons_eq_ok.mp h with ⟨hshort, hrest, h⟩ | ⟨hfull, hrest, h⟩
    · obtain ⟨x, y, hpoint, rfl⟩ := ofPoint?_eq_ok.mp h
      obtain ⟨-, _, _, hfound, hx, hodd⟩ := decompress?_eq_some hpoint
      cases hfound
      have hform : form ⟨.ofNat 256 x.val, .ofNat 256 y.val⟩ true = first := by
        have hparity : isOdd ⟨.ofNat 256 x.val, .ofNat 256 y.val⟩ = decide (first = oddForm) := by
          rw [← hodd, isOdd, isOddValue, toNat_ofNat_coordinate]
        rw [form, if_pos rfl, hparity]
        obtain rfl | rfl := hshort <;> rfl
      refine .inl ⟨congrArg Nat.succ hrest, ?_⟩
      rw [serialize, hform, hx, Word.bytes_natOfBytes hrest]
      simp
    · obtain ⟨x, y, hpoint, rfl⟩ := ofPoint?_eq_ok.mp h
      obtain ⟨-, _, _, hfound, hx, hy⟩ := full?_eq_some hpoint
      cases hfound
      refine .inr ⟨congrArg Nat.succ hrest, ?_⟩
      have htake : (rest.take 32).length = 32 := List.length_take_of_le (by omega)
      have hdrop : (rest.drop 32).length = 32 := by
        rw [List.length_drop]
        omega
      rw [serialize, hx, hy, Word.bytes_natOfBytes htake, Word.bytes_natOfBytes hdrop, hfull]
      simp [form]

/-- The first byte of a serial form tells the short one from the full one. -/
theorem form_ne_full (key : PublicKey) (compressed : Bool) :
    decide (key.form compressed ≠ fullForm) = compressed := by
  unfold form
  cases compressed with
  | false => rfl
  | true => cases key.isOdd <;> rfl

/-- A key that is read from bytes has them for the serial form that their first byte tells. -/
theorem exists_form_of_parse {bytes : List UInt8} {key : PublicKey} (h : parse bytes = .ok key) :
    ∃ compressed, bytes.headD 0 = key.form compressed ∧ bytes = key.serialize compressed := by
  rcases serialize_of_parse h with ⟨-, hbytes⟩ | ⟨-, hbytes⟩
  · exact ⟨true, by rw [hbytes]; rfl, hbytes⟩
  · exact ⟨false, by rw [hbytes]; rfl, hbytes⟩

end PublicKey

end ScriptCircuit
