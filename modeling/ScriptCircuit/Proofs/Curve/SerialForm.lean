import Mathlib
import ScriptCircuit.Proofs.Curve.Group
import ScriptCircuit.Proofs.Curve.PublicKey

/-!
# Which bytes are read as a key

The bytes that can be read as a key are the serial forms of the points of the curve, and reading undoes writing. A short form
stands for one point: minus seven is no cube, so no point has a second coordinate of zero, and of the two roots of the cubic
one is odd and one is even.
-/

namespace ScriptCircuit

open Curve MatrixAux Residue

namespace Curve

/-- Minus seven is no cube: the power of a cube with a third of the number of units is one. -/
theorem cube_add_seven_ne_zero (x : ZMod prime) : x ^ 3 + 7 ≠ 0 := by
  intro h
  have hcube : x ^ 3 = toZMod (-7 : Coordinate) := by
    rw [eq_neg_of_add_eq_zero_left h, toZMod_neg]
    rfl
  have hne : x ≠ 0 := by
    rintro rfl
    rw [zero_pow (by decide), zero_add] at h
    exact natCast_ne_zero (k := 7) (by decide) (by decide) h
  have hpower : toZMod (pow (-7 : Coordinate) ((prime - 1) / 3)) = toZMod (one 0 : Coordinate) := by
    have hthird : 3 * ((prime - 1) / 3) = prime - 1 := by decide
    rw [toZMod_pow _ (by decide), toZMod_one, ← hcube, ← pow_mul, hthird, ZMod.pow_card_sub_one_eq_one hne]
  have hdiffers : pow (-7 : Coordinate) ((prime - 1) / 3) ≠ one 0 := by decide +kernel
  exact hdiffers (toZMod_injective hpower)

end Curve

namespace PublicKey

/-! ## Roots and their parity -/

/-- The opposite of a coordinate other than zero has the other parity. -/
theorem isOddValue_neg {y : Coordinate} (h : y ≠ 0) : isOddValue (-y) = !isOddValue y := by
  have hpos : 0 < y.val := Nat.pos_of_ne_zero fun hzero => h (Fin.ext hzero)
  have hneg : (-y).val = prime - y.val := by
    rw [Fin.val_neg', Nat.mod_eq_of_lt (Nat.sub_lt_self hpos y.isLt.le)]
  have hodd : prime % 2 = 1 := by decide
  have hlt := y.isLt
  rw [isOddValue, isOddValue, hneg, ← decide_not, decide_eq_decide]
  omega

/-- No point of the curve has the second coordinate zero. -/
theorem ne_zero_of_isPoint {x : Nat} {y : Coordinate} (h : IsPoint x y.val) : y ≠ 0 := by
  rintro rfl
  refine cube_add_seven_ne_zero x (h.2.2.symm.trans ?_)
  rw [natCast_val, toZMod_eq_zero.mpr rfl, zero_pow (by decide)]

/-- Of the points with one first coordinate only one has a second coordinate of a given parity. -/
theorem eq_of_isPoint {x : Nat} {y z : Coordinate} (hy : IsPoint x y.val) (hz : IsPoint x z.val)
    (hodd : isOddValue y = isOddValue z) : y = z := by
  rcases sq_eq_sq_iff_eq_or_eq_neg.mp (hy.2.2.trans hz.2.2.symm) with heq | heq
  · exact toZMod_injective heq
  · obtain rfl : y = -z := toZMod_injective (heq.trans (toZMod_neg z).symm)
    rw [isOddValue_neg (ne_zero_of_isPoint hz)] at hodd
    exact absurd hodd (Bool.not_ne_self _)

/-- A short form can be decompressed when the cubic of its coordinate is a square. -/
theorem exists_decompress? (odd : Bool) {n : Nat} (h : n < prime) (hsquare : IsSquare ((n : ZMod prime) ^ 3 + 7)) :
    ∃ y, decompress? odd n = some (.affine ⟨n, h⟩ y) := by
  have hcubic : toZMod (Point.cubic ⟨n, h⟩) = (n : ZMod prime) ^ 3 + 7 := by
    rw [Point.toZMod_cubic, pow_three']
    rfl
  unfold decompress?
  rw [dif_pos h]
  have hroot := toZMod_sqrt (by decide) (by decide) (hcubic ▸ hsquare)
  rw [hcubic] at hroot
  generalize Residue.sqrt (Point.cubic ⟨n, h⟩) = root at hroot
  have hne : root ≠ 0 := ne_zero_of_isPoint ⟨h, root.isLt, hroot⟩
  dsimp only
  by_cases hodd : isOddValue root = odd
  · rw [if_pos hodd]
    exact ⟨root, if_pos ⟨Point.onCurve_iff_isPoint.mpr ⟨h, root.isLt, hroot⟩, hodd⟩⟩
  · rw [if_neg hodd]
    refine ⟨-root, if_pos ⟨Point.onCurve_iff_isPoint.mpr ⟨h, (-root).isLt, ?_⟩, ?_⟩⟩
    · rw [natCast_val, toZMod_neg, neg_sq, hroot]
    · rw [isOddValue_neg hne, Bool.not_eq.mpr hodd]

/-! ## Reading undoes writing -/

/-- A key that is read from bytes is a point of the curve. -/
theorem isPoint_of_parse {bytes : List UInt8} {key : PublicKey} (h : parse bytes = .ok key) :
    IsPoint key.x.toNat key.y.toNat := by
  have hread : ∀ {p : Option Point}, (∀ q, p = some q → q.onCurve = true) → ofPoint? p = .ok key →
      IsPoint key.x.toNat key.y.toNat := by
    intro p hcurve h
    obtain ⟨x, y, rfl, rfl⟩ := ofPoint?_eq_ok.mp h
    rw [toNat_ofNat_coordinate, toNat_ofNat_coordinate]
    exact Point.onCurve_iff_isPoint.mp (hcurve _ rfl)
  cases bytes with
  | nil => cases h
  | cons first rest =>
    rcases parse_cons_eq_ok.mp h with ⟨-, -, h⟩ | ⟨-, -, h⟩
    · exact hread (fun _ h => (decompress?_eq_some h).1) h
    · exact hread (fun _ h => (full?_eq_some h).1) h

/-- The full form is its prefix before both coordinates. -/
theorem serialize_full (key : PublicKey) : key.serialize false = fullForm :: (key.x.bytes ++ key.y.bytes) :=
  rfl

/-- The short form is its prefix before the first coordinate. -/
theorem serialize_short (key : PublicKey) : key.serialize true = key.form true :: key.x.bytes :=
  congrArg (key.form true :: ·) (List.append_nil _)

/-- The first byte of the short form tells the parity. -/
theorem form_short (key : PublicKey) : (key.form true = evenForm ∨ key.form true = oddForm) ∧
    decide (key.form true = oddForm) = key.isOdd := by
  unfold form
  cases key.isOdd <;> decide

/-- A point of the curve is read back from its serial forms. -/
theorem parse_serialize {key : PublicKey} (h : IsPoint key.x.toNat key.y.toNat) (compressed : Bool) :
    parse (key.serialize compressed) = .ok key := by
  obtain ⟨x, y⟩ := key
  dsimp only at h
  have hcurve : (Point.affine ⟨x.toNat, h.1⟩ ⟨y.toNat, h.2.1⟩).onCurve = true := Point.onCurve_iff_isPoint.mpr h
  have hpoint : ofPoint? (some (.affine ⟨x.toNat, h.1⟩ ⟨y.toNat, h.2.1⟩)) = .ok ⟨x, y⟩ := by
    refine ofPoint?_eq_ok.mpr ⟨_, _, rfl, ?_⟩
    rw [BitVec.ofNat_toNat, BitVec.ofNat_toNat, BitVec.setWidth_eq, BitVec.setWidth_eq]
  cases compressed with
  | false =>
    have hfull : full? x.toNat y.toNat = some (.affine ⟨x.toNat, h.1⟩ ⟨y.toNat, h.2.1⟩) := by
      rw [full?, dif_pos ⟨h.1, h.2.1⟩]
      exact if_pos hcurve
    rw [serialize_full]
    refine parse_cons_eq_ok.mpr (.inr ⟨rfl, by simp [Word.length_bytes], ?_⟩)
    rw [List.take_left' (Word.length_bytes x), List.drop_left' (Word.length_bytes x), Word.natOfBytes_bytes,
      Word.natOfBytes_bytes, hfull, hpoint]
  | true =>
    obtain ⟨hform, hodd⟩ := form_short ⟨x, y⟩
    have hsquare : IsSquare ((x.toNat : ZMod prime) ^ 3 + 7) := ⟨y.toNat, h.2.2.symm.trans (pow_two _)⟩
    obtain ⟨z, hz⟩ := exists_decompress? (isOdd ⟨x, y⟩) h.1 hsquare
    obtain ⟨hfound, _, _, haffine, -, hparity⟩ := decompress?_eq_some hz
    cases haffine
    -- the point that is found is the given one, for it has the same parity
    obtain rfl : z = ⟨y.toNat, h.2.1⟩ := eq_of_isPoint (Point.onCurve_iff_isPoint.mp hfound) h hparity
    rw [serialize_short]
    refine parse_cons_eq_ok.mpr (.inl ⟨hform, Word.length_bytes x, ?_⟩)
    rw [hodd, Word.natOfBytes_bytes, hz, hpoint]

/-- A key is read back from its full form exactly when it is a point of the curve. -/
theorem parse_serialize_full_iff {key : PublicKey} :
    parse (key.serialize false) = .ok key ↔ IsPoint key.x.toNat key.y.toNat :=
  ⟨isPoint_of_parse, fun h => parse_serialize h false⟩

theorem isPoint_generator : IsPoint generator.x.toNat generator.y.toNat :=
  Point.onCurve_iff_isPoint.mp Point.onCurve_base

/-! ## The bytes that can be read -/

/-- The serial forms of points: a short one needs a coordinate below the prime whose cubic is a square, one with both
coordinates those of a point. -/
inductive IsSerialForm : List UInt8 → Prop where
  | short {first : UInt8} {x : List UInt8} (hfirst : first = 0x02 ∨ first = 0x03) (hlength : x.length = 32)
      (hlt : Word.natOfBytes x < prime) (hsquare : IsSquare ((Word.natOfBytes x : ZMod prime) ^ 3 + 7)) :
      IsSerialForm (first :: x)
  | full {x y : List UInt8} (hx : x.length = 32) (hy : y.length = 32)
      (hpoint : IsPoint (Word.natOfBytes x) (Word.natOfBytes y)) : IsSerialForm (0x04 :: (x ++ y))

/-- Exactly the serial forms are read. -/
theorem exists_parse_iff {bytes : List UInt8} : (∃ key, parse bytes = .ok key) ↔ IsSerialForm bytes := by
  constructor
  · rintro ⟨key, h⟩
    have hpoint := isPoint_of_parse h
    rw [← Word.natOfBytes_bytes key.x, ← Word.natOfBytes_bytes key.y] at hpoint
    obtain ⟨compressed, -, rfl⟩ := exists_form_of_parse h
    cases compressed with
    | false => exact .full (Word.length_bytes _) (Word.length_bytes _) hpoint
    | true =>
      rw [serialize_short]
      exact .short (form_short key).1 (Word.length_bytes _) hpoint.1 ⟨_, hpoint.2.2.symm.trans (pow_two _)⟩
  · intro h
    cases h with
    | @short first x hfirst hlength hlt hsquare =>
      obtain ⟨y, hy⟩ := exists_decompress? (first = oddForm) hlt hsquare
      exact ⟨_, parse_cons_eq_ok.mpr (.inl ⟨hfirst, hlength, ofPoint?_eq_ok.mpr ⟨_, y, hy, rfl⟩⟩)⟩
    | @full x y hx hy hpoint =>
      rw [← Word.toNat_ofBytes hx, ← Word.toNat_ofBytes hy] at hpoint
      have hserial : serialize ⟨.ofBytes x, .ofBytes y⟩ false = 0x04 :: (x ++ y) := by
        rw [serialize_full, Word.ofBytes, Word.ofBytes, Word.bytes_natOfBytes hx, Word.bytes_natOfBytes hy]
        rfl
      exact ⟨⟨.ofBytes x, .ofBytes y⟩, hserial ▸ parse_serialize hpoint false⟩

/-- The points of the curve are read back from both serial forms. The bytes that can be read are the serial forms of points,
each that of the key that is read, in the form that its first byte names; others are refused as arguments. -/
theorem parse_exactly :
    (∀ (key : PublicKey) (compressed : Bool), IsPoint key.x.toNat key.y.toNat →
        parse (key.serialize compressed) = .ok key) ∧
      ∀ bytes, ((∃ key, parse bytes = .ok key) ↔ IsSerialForm bytes) ∧
        (∀ key, parse bytes = .ok key → key.serialize (bytes.headD 0 ≠ 0x04) = bytes) ∧
        ∀ e, parse bytes = .error e → e.category = .argument := by
  refine ⟨fun key compressed h => parse_serialize h compressed, fun bytes => ⟨exists_parse_iff, ?_, ?_⟩⟩
  · intro key h
    obtain ⟨compressed, hfirst, hbytes⟩ := exists_form_of_parse h
    have hform : decide (bytes.headD 0 ≠ 0x04) = compressed := by
      rw [hfirst]
      exact form_ne_full key compressed
    rw [hform, ← hbytes]
  · intro e h
    obtain rfl | ⟨_, rfl⟩ | ⟨_, _, _, rfl⟩ | rfl := parse_error_cases h <;> rfl

/-- The base point is read back from its short form, and a coordinate above the prime is refused. -/
theorem parse_exactly_generator : parse (generator.serialize true) = .ok generator ∧
    ∃ e, parse (0x02 :: List.replicate 32 0xff) = .error e ∧ e.category = .argument := by
  obtain ⟨hwritten, hread⟩ := parse_exactly
  obtain ⟨hserial, -, hrefused⟩ := hread (0x02 :: List.replicate 32 0xff)
  refine ⟨hwritten generator true isPoint_generator, ?_⟩
  cases h : parse (0x02 :: List.replicate 32 0xff) with
  | error e => exact ⟨e, rfl, hrefused e h⟩
  | ok key =>
    have hform := hserial.mp ⟨key, h⟩
    generalize hbytes : (0x02 :: List.replicate 32 0xff : List UInt8) = bytes at hform
    cases hform with
    | short _ _ hlt _ =>
      obtain ⟨-, rfl⟩ := List.cons.inj hbytes
      exact absurd hlt (by decide)
    | full => exact absurd (List.cons.inj hbytes).1 (by decide)

end PublicKey

end ScriptCircuit
