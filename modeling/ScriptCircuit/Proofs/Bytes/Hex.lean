import Mathlib
import ScriptCircuit.Bytes.Hex

/-!
# The grammar of hexadecimal text

A text is hexadecimal when it consists of an optional mark and an even number of digits of either case. Reading accepts these
texts and no others, and apart from the mark and the case of its letters a text is what the bytes that are read from it are
written as.
-/

namespace ScriptCircuit.Hex

/-- A text that may stand in front of the digits. -/
def IsMark (text : List UInt8) : Prop :=
  text ∈ ["", "0x", "0X"].map utf8

/-- A digit of either case. -/
def IsDigit (b : UInt8) : Prop :=
  b ∈ utf8 "0123456789abcdefABCDEF"

instance (text : List UInt8) : Decidable (IsMark text) :=
  inferInstanceAs (Decidable (text ∈ ["", "0x", "0X"].map utf8))

instance (b : UInt8) : Decidable (IsDigit b) :=
  inferInstanceAs (Decidable (b ∈ utf8 "0123456789abcdefABCDEF"))

/-- The byte with an upper-case letter turned into the lower-case one. -/
def lower (b : UInt8) : UInt8 :=
  if 'A'.toUInt8 ≤ b ∧ b ≤ 'Z'.toUInt8 then b + 32 else b

/-- An optional mark and an even number of digits. -/
def IsHex (text : List UInt8) : Prop :=
  ∃ mark body, text = mark ++ body ∧ IsMark mark ∧ Even body.length ∧ ∀ b ∈ body, IsDigit b

/-- The text is what bytes are written as, apart from an optional mark and the case of its letters. -/
def Spells (text bytes : List UInt8) : Prop :=
  ∃ mark body, text = mark ++ body ∧ IsMark mark ∧ (∀ b ∈ body, IsDigit b) ∧ body.map lower = utf8 (encode bytes)

/-! ## Digits -/

/-- The digits are the bytes that have a value. -/
theorem isDigit_iff : ∀ b : UInt8, IsDigit b ↔ (digit? (.ofUInt8 b)).isSome := by
  decide +kernel

/-- The value of a digit is below sixteen, and written it is the digit in lower case. -/
theorem digitChar_of_digit : ∀ b : UInt8, ∀ n ∈ digit? (.ofUInt8 b), n < 16 ∧ (digitChar n).toUInt8 = lower b := by
  decide +kernel

/-- A digit that is written is an ASCII character, a digit in lower case that has the value it stands for. -/
theorem digit_of_digitChar : ∀ n < 16, (digitChar n).toNat < 128 ∧ lower (digitChar n).toUInt8 = (digitChar n).toUInt8 ∧
    digit? (.ofUInt8 (digitChar n).toUInt8) = some n := by
  decide

theorem exists_digit {b : UInt8} (h : IsDigit b) : ∃ n, digit? (.ofUInt8 b) = some n :=
  Option.isSome_iff_exists.mp ((isDigit_iff b).mp h)

theorem isDigit_of_digit {b : UInt8} {n : Nat} (h : digit? (.ofUInt8 b) = some n) : IsDigit b :=
  (isDigit_iff b).mpr (Option.isSome_iff_exists.mpr ⟨n, h⟩)

/-! ## Written bytes -/

/-- A text of ASCII characters has one byte for each of them. -/
theorem utf8_ofList {text : List Char} (h : ∀ c ∈ text, c.toNat < 128) :
    utf8 (String.ofList text) = text.map Char.toUInt8 := by
  have hone : ∀ c ∈ text, String.utf8EncodeChar c = [c.toUInt8] := by
    intro c hc
    have hsize : c.utf8Size = 1 := Char.utf8Size_eq_one_iff.mpr (UInt32.le_iff_toNat_le.mpr (Nat.le_of_lt_succ (h c hc)))
    exact String.utf8EncodeChar_eq_singleton hsize
  rw [utf8, String.toUTF8_eq_toByteArray, String.toByteArray_ofList, List.utf8Encode, List.data_toByteArray,
    List.toList_toArray, List.flatMap_congr hone, ← List.map_eq_flatMap]

/-- The two digits of a byte. -/
def pair (b : UInt8) : List UInt8 :=
  (byteChars b).map Char.toUInt8

/-- The bytes of an encoding are the pairs of digits. -/
theorem utf8_encode (bytes : List UInt8) : utf8 (encode bytes) = bytes.flatMap pair := by
  have hascii : ∀ c ∈ bytes.flatMap byteChars, c.toNat < 128 := by
    intro c hc
    obtain ⟨b, -, hc⟩ := List.mem_flatMap.mp hc
    have hb := b.toNat_lt
    rcases List.mem_pair.mp hc with rfl | rfl
    · exact (digit_of_digitChar _ (by omega)).1
    · exact (digit_of_digitChar _ (by omega)).1
  rw [encode, utf8_ofList hascii, List.map_flatMap]
  rfl

/-- The bytes of digit pairs that are written are read back. -/
theorem pairs?_utf8_encode (bytes : List UInt8) : pairs? (utf8 (encode bytes)) = some bytes := by
  rw [utf8_encode]
  induction bytes with
  | nil => rfl
  | cons b bytes ih =>
    have hb := b.toNat_lt
    obtain ⟨-, -, hupper⟩ := digit_of_digitChar (b.toNat / 16) (by omega)
    obtain ⟨-, -, hlower⟩ := digit_of_digitChar (b.toNat % 16) (by omega)
    have hcons : (b :: bytes).flatMap pair =
        (digitChar (b.toNat / 16)).toUInt8 :: (digitChar (b.toNat % 16)).toUInt8 :: bytes.flatMap pair := rfl
    rw [hcons, pairs?, hupper, hlower, ih]
    dsimp only
    rw [Nat.div_add_mod, UInt8.ofNat_toNat]

/-- An encoding has two digits for each byte. -/
theorem length_utf8_encode (bytes : List UInt8) : (utf8 (encode bytes)).length = 2 * bytes.length := by
  rw [utf8_encode]
  induction bytes with
  | nil => rfl
  | cons b bytes ih =>
    rw [List.flatMap_cons, List.length_append, ih, List.length_cons]
    change 2 + _ = _
    omega

/-! ## Reading digits -/

/-- Digits that are read are what the bytes are written as, in lower case. -/
theorem of_pairs? {body bytes : List UInt8} (h : pairs? body = some bytes) :
    (∀ b ∈ body, IsDigit b) ∧ body.map lower = utf8 (encode bytes) := by
  rw [utf8_encode]
  fun_induction pairs? body generalizing bytes with
  | case1 =>
    cases h
    exact ⟨nofun, rfl⟩
  | case2 => cases h
  | case3 upper low rest u l others hrest hl hu ih =>
    cases h
    obtain ⟨hdigits, hmap⟩ := ih hrest
    obtain ⟨hu16, hupper⟩ := digitChar_of_digit upper u hu
    obtain ⟨hl16, hlow⟩ := digitChar_of_digit low l hl
    have hvalue : (UInt8.ofNat (16 * u + l)).toNat = 16 * u + l := by
      rw [UInt8.toNat_ofNat']
      omega
    refine ⟨List.forall_mem_cons.mpr ⟨isDigit_of_digit hu, List.forall_mem_cons.mpr ⟨isDigit_of_digit hl, hdigits⟩⟩, ?_⟩
    have hdiv : (16 * u + l) / 16 = u := by omega
    have hmod : (16 * u + l) % 16 = l := by omega
    rw [List.map_cons, List.map_cons, List.flatMap_cons, hmap, ← hupper, ← hlow, pair, byteChars, hvalue, hdiv, hmod]
    rfl
  | case4 => cases h

/-- An even number of digits is read. -/
theorem exists_pairs? {body : List UInt8} (heven : Even body.length) (hdigits : ∀ b ∈ body, IsDigit b) :
    ∃ bytes, pairs? body = some bytes := by
  fun_induction pairs? body with
  | case1 => exact ⟨[], rfl⟩
  | case2 => exact absurd heven (Nat.not_even_iff_odd.mpr odd_one)
  | case3 => exact ⟨_, rfl⟩
  | case4 upper low rest hnone ih =>
    obtain ⟨hupper, hdigits⟩ := List.forall_mem_cons.mp hdigits
    obtain ⟨hlow, hdigits⟩ := List.forall_mem_cons.mp hdigits
    obtain ⟨u, hu⟩ := exists_digit hupper
    obtain ⟨l, hl⟩ := exists_digit hlow
    obtain ⟨bytes, hbytes⟩ := ih (by simpa [Nat.even_add_one] using heven) hdigits
    exact absurd hbytes (hnone u l bytes hu hl)

/-! ## Marks -/

/-- What stands in front of the digits is a mark. -/
theorem exists_mark (text : List UInt8) : ∃ mark, IsMark mark ∧ text = mark ++ unmarked text := by
  unfold unmarked
  split
  · exact ⟨utf8 "0x", by decide, rfl⟩
  · exact ⟨utf8 "0X", by decide, rfl⟩
  · exact ⟨utf8 "", by decide, rfl⟩

/-- Digits are what a mark in front of them leaves: no mark is made of digits. -/
theorem unmarked_append {mark body : List UInt8} (hmark : IsMark mark) (hdigits : ∀ b ∈ body, IsDigit b) :
    unmarked (mark ++ body) = body := by
  simp only [IsMark, List.map_cons, List.map_nil, List.mem_cons, List.not_mem_nil, or_false] at hmark
  rcases hmark with rfl | rfl | rfl
  · change unmarked body = body
    unfold unmarked
    split
    · exact absurd (hdigits 0x78 (by simp)) (by decide)
    · exact absurd (hdigits 0x58 (by simp)) (by decide)
    · rfl
  · rfl
  · rfl

/-! ## Reading -/

/-- Bytes are read exactly from a text that spells them. -/
theorem read_eq_ok {quoted : String} {text bytes : List UInt8} : read quoted text = .ok bytes ↔ Spells text bytes := by
  constructor
  · intro h
    unfold read at h
    dsimp only at h
    split at h
    · cases h
    · split at h
      next hpairs =>
        cases h
        obtain ⟨mark, hmark, htext⟩ := exists_mark text
        obtain ⟨hdigits, hmap⟩ := of_pairs? hpairs
        exact ⟨mark, unmarked text, htext, hmark, hdigits, hmap⟩
      next => cases h
  · rintro ⟨mark, body, rfl, hmark, hdigits, hmap⟩
    have hlength : body.length = 2 * bytes.length := by
      rw [← length_utf8_encode, ← hmap, List.length_map]
    obtain ⟨bytes', hpairs⟩ := exists_pairs? ⟨bytes.length, by omega⟩ hdigits
    have hsame : bytes' = bytes := by
      have hback := pairs?_utf8_encode bytes
      rw [← hmap, (of_pairs? hpairs).2, pairs?_utf8_encode] at hback
      exact Option.some.inj hback
    unfold read
    dsimp only
    rw [unmarked_append hmark hdigits, if_neg (by omega), hpairs, hsame]
    rfl

/-- The texts that spell bytes are those of the grammar. -/
theorem exists_spells_iff {text : List UInt8} : (∃ bytes, Spells text bytes) ↔ IsHex text := by
  constructor
  · rintro ⟨bytes, mark, body, rfl, hmark, hdigits, hmap⟩
    have hlength : body.length = 2 * bytes.length := by
      rw [← length_utf8_encode, ← hmap, List.length_map]
    exact ⟨mark, body, rfl, hmark, ⟨bytes.length, by omega⟩, hdigits⟩
  · rintro ⟨mark, body, rfl, hmark, heven, hdigits⟩
    obtain ⟨bytes, hpairs⟩ := exists_pairs? heven hdigits
    exact ⟨bytes, mark, body, rfl, hmark, hdigits, (of_pairs? hpairs).2⟩

/-- A text that is refused is an argument that breaks the rules of hexadecimal text. -/
theorem category_of_read {quoted : String} {text : List UInt8} {e : Error} (h : read quoted text = .error e) :
    e.category = .argument := by
  unfold read at h
  dsimp only at h
  split at h
  · cases h
    rfl
  · split at h
    · cases h
    · cases h
      rfl

/-- What is written spells the bytes it is written from. -/
theorem spells_encode (bytes : List UInt8) : Spells (utf8 (encode bytes)) bytes :=
  ⟨utf8 "", utf8 (encode bytes), rfl, by decide, of_pairs? (pairs?_utf8_encode bytes)⟩

/-- Reading accepts exactly the texts that consist of an optional mark and an even number of digits of either case, and refuses
all others, whatever bytes they are made of, as arguments that break a rule. What is written is read back, and what has been
read is written as the text was, without its mark and in lower case. -/
theorem read_exactly :
    (∀ quoted text, (∃ bytes, read quoted text = .ok bytes) ↔ IsHex text) ∧
      (∀ quoted text e, read quoted text = .error e → e.category = .argument) ∧
      (∀ bytes, decode (encode bytes) = .ok bytes) ∧
      ∀ quoted text bytes, read quoted text = .ok bytes →
        ∃ mark body, text = mark ++ body ∧ IsMark mark ∧ (∀ b ∈ body, IsDigit b) ∧ utf8 (encode bytes) = body.map lower := by
  refine ⟨fun quoted text => ?_, fun quoted text e => category_of_read, fun bytes => ?_, fun quoted text bytes h => ?_⟩
  · simp only [read_eq_ok]
    exact exists_spells_iff
  · exact read_eq_ok.mpr (spells_encode bytes)
  · obtain ⟨mark, body, htext, hmark, hdigits, hmap⟩ := read_eq_ok.mp h
    exact ⟨mark, body, htext, hmark, hdigits, hmap.symm⟩

/-- A mark and two digits of either case are read, and bytes that are no UTF-8 are refused. -/
theorem read_exactly_marked : (∃ bytes, read "" (utf8 "0XaB") = .ok bytes) ∧
    ∃ e, read "" [0xc3, 0x28] = .error e ∧ e.category = .argument := by
  obtain ⟨haccepts, hrefuses, -, -⟩ := read_exactly
  refine ⟨(haccepts "" _).mpr ⟨utf8 "0X", utf8 "aB", rfl, by decide, by decide, by decide +kernel⟩, ?_⟩
  cases h : read "" [0xc3, 0x28] with
  | error e => exact ⟨e, rfl, hrefuses _ _ e h⟩
  | ok bytes =>
    have hread : read "" [0xc3, 0x28] = .error (.hexCharacter "") := by decide
    cases hread.symm.trans h

end ScriptCircuit.Hex
