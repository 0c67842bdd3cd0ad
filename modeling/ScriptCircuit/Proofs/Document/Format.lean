import Mathlib
import ScriptCircuit.Document
import ScriptCircuit.Proofs.Bytes.Hex
import ScriptCircuit.Proofs.Curve.PublicKey
import ScriptCircuit.Proofs.Plonk.Satisfied

/-!
# The format of input documents

What a document must hold to be read, and which spend is read from it. Reading asks less than the documented format does: the
challenge may be any number, and where a list of items or signatures is expected any value is gone through. With the documented
types of these three fields the two agree.
-/

namespace ScriptCircuit

open MatrixAux SatisfiedAux

namespace Document

/-- A field holds bytes as hexadecimal text. -/
def HoldsBytes (doc : Json) (field : String) (bytes : List UInt8) : Prop :=
  ∃ text, doc.field? field = some (.string text) ∧ Hex.Spells (Hex.utf8 text) bytes

/-- A field holds the 32 bytes of a scalar. -/
def HoldsScalar (entry : Json) (field : String) (w : Word) : Prop :=
  ∃ bytes, HoldsBytes entry field bytes ∧ bytes.length = 32 ∧ w = .ofBytes bytes

/-- An entry of the initial stack names an item: a signature, by the outcome of its check, or hexadecimal data. -/
def NamesItem (entry : Json) (i : Item) : Prop :=
  ∃ text, entry = .string text ∧ ((text = "valid_signature" ∧ i = .validSignature) ∨
    (text = "invalid_signature" ∧ i = .invalidSignature) ∨ ∃ bytes, Hex.Spells (Hex.utf8 text) bytes ∧ i = .data bytes)

/-- An entry of the signatures holds a signature with its key. -/
structure HoldsSigned (entry : Json) (signed : Bridge.SignedKey) : Prop where
  r : HoldsScalar entry "r" signed.signature.r
  s : HoldsScalar entry "s" signed.signature.s
  key : ∃ bytes, HoldsBytes entry "public_key" bytes ∧ PublicKey.parse bytes = .ok signed.key

/-- What a document says of a spend, to a reader that takes any number as the challenge and goes through any value as a list. -/
structure Describes (doc : Json) (spend : Spend) : Prop where
  script : HoldsBytes doc "script" spend.script
  challenge : (doc.field? "randomness" = none ∧ spend.challenge = 0) ∨
    ∃ n, doc.field? "randomness" = some (.number n) ∧ spend.challenge = .ofWord n.toWord
  items : List.Forall₂ NamesItem (entries doc "initial_stack") spend.items
  signatures : List.Forall₂ HoldsSigned (entries doc "signatures") spend.signatures

/-- The documented format: an object with a hexadecimal script; the challenge, if there is one, is a word of 64 bits; the
initial stack and the signatures, if they are there, are arrays of items and of signatures with their keys. -/
structure Documented (doc : Json) : Prop where
  script : ∃ bytes, HoldsBytes doc "script" bytes
  challenge : ∀ value, doc.field? "randomness" = some value → ∃ n : UInt64, value = .number (.integer n.toNat)
  items : ∀ value, doc.field? "initial_stack" = some value →
    ∃ list, value = .array list ∧ ∀ entry ∈ list, ∃ item, NamesItem entry item
  signatures : ∀ value, doc.field? "signatures" = some value →
    ∃ list, value = .array list ∧ ∀ entry ∈ list, ∃ signed, HoldsSigned entry signed

/-- The fields that may be missing have the documented types where they are there. -/
structure Typed (doc : Json) : Prop where
  challenge : ∀ value, doc.field? "randomness" = some value → ∃ n : UInt64, value = .number (.integer n.toNat)
  items : ∀ value, doc.field? "initial_stack" = some value → ∃ list, value = .array list
  signatures : ∀ value, doc.field? "signatures" = some value → ∃ list, value = .array list

/-- Behind a script that can be read a challenge is no number. -/
def BadChallenge (doc : Json) : Prop :=
  (∃ bytes, HoldsBytes doc "script" bytes) ∧ ∃ value, doc.field? "randomness" = some value ∧ ∀ n, value ≠ .number n

variable {doc entry : Json} {field : String} {e : Error}

/-! ## Parts of a document -/

theorem decode_eq_ok {text : String} {bytes : List UInt8} : Hex.decode text = .ok bytes ↔ Hex.Spells (Hex.utf8 text) bytes :=
  Hex.read_eq_ok

/-- A field that is a text holds the bytes the text gives. -/
theorem holdsBytes_iff {text : String} (htext : doc.field? field = some (.string text)) {bytes : List UInt8} :
    HoldsBytes doc field bytes ↔ Hex.decode text = .ok bytes := by
  rw [decode_eq_ok]
  constructor
  · rintro ⟨text', htext', hspells⟩
    cases htext.symm.trans htext'
    exact hspells
  · exact fun hspells => ⟨text, htext, hspells⟩

/-- A field that is no text holds no bytes. -/
theorem not_holdsBytes (h : ∀ text, doc.field? field = some (.string text) → False) (bytes : List UInt8) :
    ¬HoldsBytes doc field bytes :=
  fun ⟨text, htext, _⟩ => h text htext

/-- A scalar is read exactly where the field holds one. -/
theorem scalar_eq_ok {w : Word} : scalar entry field = .ok w ↔ HoldsScalar entry field w := by
  unfold scalar
  split
  next text htext =>
    rw [except_bind_eq_ok]
    refine exists_congr fun bytes => ?_
    rw [holdsBytes_iff htext]
    refine and_congr_right fun _ => ?_
    by_cases hlength : bytes.length ≠ 32
    · rw [if_pos hlength]
      exact iff_of_false nofun fun h => hlength h.1
    · rw [if_neg hlength, and_iff_right (not_not.mp hlength)]
      exact except_ok_eq_ok
  next hno => exact iff_of_false nofun fun ⟨bytes, h, _⟩ => not_holdsBytes hno bytes h

/-- The names of signatures are not hexadecimal. -/
theorem not_spells_name {text : String} (h : text = "valid_signature" ∨ text = "invalid_signature") (bytes : List UInt8) :
    ¬Hex.Spells (Hex.utf8 text) bytes := by
  intro hspells
  have hread := decode_eq_ok.mpr hspells
  rcases h with rfl | rfl
  · have hrefused : Hex.decode "valid_signature" = .error (.oddHexLength "valid_signature") := by decide
    cases hrefused.symm.trans hread
  · have hrefused : Hex.decode "invalid_signature" = .error (.oddHexLength "invalid_signature") := by decide
    cases hrefused.symm.trans hread

/-- A text that names no signature is read as bytes. -/
theorem item_string {text : String} (hvalid : text ≠ "valid_signature") (hinvalid : text ≠ "invalid_signature") :
    item (.string text) = Hex.decode text >>= fun bytes => pure (.data bytes) := by
  unfold item
  split
  next h => exact absurd (Json.string.inj h) hvalid
  next h => exact absurd (Json.string.inj h) hinvalid
  next h =>
    cases h
    rfl
  next hno => exact absurd rfl (hno text)

/-- A text names a signature of either kind or spells bytes. -/
theorem namesItem_string {text : String} {i : Item} : NamesItem (.string text) i ↔
    (text = "valid_signature" ∧ i = .validSignature) ∨ (text = "invalid_signature" ∧ i = .invalidSignature) ∨
      ∃ bytes, Hex.Spells (Hex.utf8 text) bytes ∧ i = .data bytes := by
  constructor
  · rintro ⟨text', htext, h⟩
    cases htext
    exact h
  · exact fun h => ⟨text, rfl, h⟩

/-- An item is read exactly where the entry names one. -/
theorem item_eq_ok {i : Item} : item entry = .ok i ↔ NamesItem entry i := by
  cases entry with
  | string text =>
    rw [namesItem_string]
    by_cases hvalid : text = "valid_signature"
    · subst hvalid
      refine except_ok_eq_ok.trans ⟨fun h => .inl ⟨rfl, h⟩, ?_⟩
      rintro (⟨-, h⟩ | ⟨h, -⟩ | ⟨bytes, hspells, -⟩)
      · exact h
      · exact absurd h (by decide)
      · exact absurd hspells (not_spells_name (.inl rfl) bytes)
    · by_cases hinvalid : text = "invalid_signature"
      · subst hinvalid
        refine except_ok_eq_ok.trans ⟨fun h => .inr (.inl ⟨rfl, h⟩), ?_⟩
        rintro (⟨h, -⟩ | ⟨-, h⟩ | ⟨bytes, hspells, -⟩)
        · exact absurd h (by decide)
        · exact h
        · exact absurd hspells (not_spells_name (.inr rfl) bytes)
      · rw [item_string hvalid hinvalid, except_bind_eq_ok, or_iff_right (fun h => hvalid h.1),
          or_iff_right (fun h => hinvalid h.1)]
        exact exists_congr fun bytes => and_congr decode_eq_ok except_ok_eq_ok
  | null | bool | number | array | object => exact iff_of_false nofun fun ⟨_, h, _⟩ => nomatch h

/-- A signature is read exactly where the entry holds one. -/
theorem signedKey_eq_ok {signed : Bridge.SignedKey} : signedKey entry = .ok signed ↔ HoldsSigned entry signed := by
  unfold signedKey
  split
  next text htext =>
    simp only [except_bind_eq_ok, scalar_eq_ok, ← holdsBytes_iff htext]
    constructor
    · rintro ⟨r, hr, s, hs, bytes, hbytes, key, hkey, h⟩
      cases h
      exact ⟨hr, hs, bytes, hbytes, hkey⟩
    · rintro ⟨hr, hs, bytes, hbytes, hkey⟩
      exact ⟨_, hr, _, hs, bytes, hbytes, _, hkey, rfl⟩
  next hno => exact iff_of_false nofun fun h => h.key.elim fun bytes h => not_holdsBytes hno bytes h.1

/-! ## Refusals -/

section

variable {α β : Type} {x : Except Error α} {f : α → Except Error β}

/-- A reading that fails only where its argument breaks a rule. -/
def BreaksRule (x : Except Error α) : Prop :=
  ∀ e, x = .error e → e.category = .argument

theorem breaksRule_ok (a : α) : BreaksRule (.ok a) :=
  nofun

/-- An invalid argument breaks a rule. -/
theorem breaksRule_error (h : e.category = .argument) : BreaksRule (.error e : Except Error α) := by
  rintro _ ⟨⟩
  exact h

/-- A sequence breaks rules only when its parts do. -/
theorem BreaksRule.bind (hx : BreaksRule x) (hf : ∀ a, BreaksRule (f a)) : BreaksRule (x >>= f) := by
  intro e h
  rcases except_bind_eq_error.mp h with h | ⟨a, -, h⟩
  · exact hx e h
  · exact hf a e h

/-- A loop breaks rules only when its steps do. -/
theorem breaksRule_mapM (hf : ∀ a, BreaksRule (f a)) (xs : List α) : BreaksRule (xs.mapM f) := by
  intro e h
  obtain ⟨a, -, h⟩ := mapM_eq_error h
  exact hf a e h

end

theorem breaksRule_decode (text : String) : BreaksRule (Hex.decode text) :=
  fun _ => Hex.category_of_read

/-- A field that holds no scalar breaks a rule. -/
theorem breaksRule_scalar (entry : Json) (field : String) : BreaksRule (scalar entry field) := by
  unfold scalar
  split
  · refine (breaksRule_decode _).bind fun bytes => ?_
    by_cases hlength : bytes.length ≠ 32
    · rw [if_pos hlength]
      exact breaksRule_error rfl
    · rw [if_neg hlength]
      exact breaksRule_ok _
  · exact breaksRule_error rfl

/-- An entry that names no item breaks a rule. -/
theorem breaksRule_item (entry : Json) : BreaksRule (item entry) := by
  unfold item
  split
  · exact breaksRule_ok _
  · exact breaksRule_ok _
  · exact (breaksRule_decode _).bind fun _ => breaksRule_ok _
  · exact breaksRule_error rfl

/-- Bytes that are no key break a rule. -/
theorem breaksRule_parse (bytes : List UInt8) : BreaksRule (PublicKey.parse bytes) := by
  intro e h
  obtain rfl | ⟨_, rfl⟩ | ⟨_, _, _, rfl⟩ | rfl := PublicKey.parse_error_cases h <;> rfl

/-- An entry that holds no signature breaks a rule. -/
theorem breaksRule_signedKey (entry : Json) : BreaksRule (signedKey entry) := by
  unfold signedKey
  split
  · refine (breaksRule_scalar _ _).bind fun r => (breaksRule_scalar _ _).bind fun s => ?_
    exact (breaksRule_decode _).bind fun bytes => (breaksRule_parse bytes).bind fun _ => breaksRule_ok _
  · exact breaksRule_error rfl

/-! ## The challenge -/

/-- The challenge is any number, reduced, and zero when there is none. -/
theorem challenge_eq_ok {a : Felt} : challenge doc = .ok a ↔ (doc.field? "randomness" = none ∧ a = 0) ∨
    ∃ n, doc.field? "randomness" = some (.number n) ∧ a = .ofWord n.toWord := by
  unfold challenge
  split
  next hnone =>
    rw [hnone]
    refine except_ok_eq_ok.trans ⟨fun h => .inl ⟨rfl, h⟩, ?_⟩
    rintro (⟨-, h⟩ | ⟨n, h, -⟩)
    · exact h
    · cases h
  next n hnumber =>
    rw [hnumber]
    refine except_ok_eq_ok.trans ⟨fun h => .inr ⟨n, rfl, h⟩, ?_⟩
    rintro (⟨h, -⟩ | ⟨n', h, ha⟩)
    · cases h
    · cases h
      exact ha
  next other hno hother =>
    rw [hother]
    refine iff_of_false nofun ?_
    rintro (⟨h, -⟩ | ⟨n, h, -⟩)
    · cases h
    · exact hno n (Option.some.inj h)

/-- Only a challenge that is there and is no number is refused, by the name of its type. -/
theorem challenge_eq_error : challenge doc = .error e ↔
    ∃ value, doc.field? "randomness" = some value ∧ (∀ n, value ≠ .number n) ∧ e = .notNumber value.typeName := by
  unfold challenge
  split
  next hnone => exact iff_of_false nofun fun ⟨_, h, _⟩ => nomatch hnone.symm.trans h
  next n hnumber =>
    refine iff_of_false nofun fun ⟨_, h, hno, _⟩ => ?_
    exact hno n (Option.some.inj (h.symm.trans hnumber))
  next other hno hother =>
    constructor
    · intro h
      exact ⟨other, hother, hno, (Except.error.inj h).symm⟩
    · rintro ⟨value, hvalue, -, rfl⟩
      cases hother.symm.trans hvalue
      rfl

/-! ## Lists that may be missing -/

/-- Where a list is an array or missing, its entries are what the array holds. -/
theorem forall_entries_iff {p : Json → Prop} : ((∀ entry ∈ entries doc field, p entry) ∧
    ∀ value, doc.field? field = some value → ∃ list, value = .array list) ↔
      ∀ value, doc.field? field = some value → ∃ list, value = .array list ∧ ∀ entry ∈ list, p entry := by
  unfold entries
  cases doc.field? field with
  | none => exact iff_of_true ⟨List.forall_mem_nil p, nofun⟩ nofun
  | some value =>
    constructor
    · rintro ⟨hall, harray⟩ value' hvalue
      obtain rfl := Option.some.inj hvalue
      obtain ⟨list, rfl⟩ := harray value rfl
      exact ⟨list, rfl, hall⟩
    · intro h
      obtain ⟨list, rfl, hall⟩ := h value rfl
      exact ⟨hall, fun value' hvalue => ⟨list, (Option.some.inj hvalue).symm⟩⟩

/-! ## Spends -/

/-- A spend is read exactly where the document describes one. -/
theorem spend_eq_ok {s : Spend} : spend doc = .ok s ↔ Describes doc s := by
  unfold spend
  split
  next text htext =>
    simp only [except_bind_eq_ok, ← holdsBytes_iff htext, challenge_eq_ok, mapM_eq_ok, item_eq_ok, signedKey_eq_ok]
    constructor
    · rintro ⟨script, hscript, challenge, hchallenge, items, hitems, signatures, hsignatures, h⟩
      cases h
      exact ⟨hscript, hchallenge, hitems, hsignatures⟩
    · rintro ⟨hscript, hchallenge, hitems, hsignatures⟩
      exact ⟨_, hscript, _, hchallenge, _, hitems, _, hsignatures, rfl⟩
  next hno => exact iff_of_false nofun fun h => not_holdsBytes hno _ h.script

/-- The reading stops at a challenge of a wrong type, or at a part that breaks a rule. -/
theorem spend_eq_error (h : spend doc = .error e) : (BadChallenge doc ∧ e.category = .jsonType) ∨ e.category = .argument := by
  unfold spend at h
  split at h
  next text htext =>
    rcases except_bind_eq_error.mp h with h | ⟨script, hscript, h⟩
    · exact .inr (breaksRule_decode text e h)
    rcases except_bind_eq_error.mp h with h | ⟨challenge, -, h⟩
    · obtain ⟨value, hvalue, hno, rfl⟩ := challenge_eq_error.mp h
      exact .inl ⟨⟨⟨script, (holdsBytes_iff htext).mpr hscript⟩, value, hvalue, hno⟩, rfl⟩
    have hlists : BreaksRule ((entries doc "initial_stack").mapM item >>= fun items =>
        (entries doc "signatures").mapM signedKey >>= fun signatures =>
          pure { script, challenge, items, signatures : Spend }) :=
      (breaksRule_mapM breaksRule_item _).bind fun _ =>
        (breaksRule_mapM breaksRule_signedKey _).bind fun _ => breaksRule_ok _
    exact .inr (hlists e h)
  next =>
    cases h
    exact .inr rfl

/-- Behind a readable script, randomness that is no number is a type error. -/
theorem spend_of_badChallenge (hbad : BadChallenge doc) : ∃ e, spend doc = .error e ∧ e.category = .jsonType := by
  obtain ⟨⟨script, text, htext, hspells⟩, value, hvalue, hno⟩ := hbad
  have hchallenge : challenge doc = .error (.notNumber value.typeName) := challenge_eq_error.mpr ⟨value, hvalue, hno, rfl⟩
  refine ⟨.notNumber value.typeName, ?_, rfl⟩
  unfold spend
  rw [htext]
  exact except_bind_eq_error.mpr (.inr ⟨script, decode_eq_ok.mpr hspells, except_bind_eq_error.mpr (.inl hchallenge)⟩)

/-- A document in the documented format describes a spend, and one that describes a spend is in that format when its types are. -/
theorem documented_iff : Documented doc ↔ (∃ s, Describes doc s) ∧ Typed doc := by
  constructor
  · intro h
    obtain ⟨script, hscript⟩ := h.script
    obtain ⟨hitems, hitemsArray⟩ := forall_entries_iff.mpr h.items
    obtain ⟨hsignatures, hsignaturesArray⟩ := forall_entries_iff.mpr h.signatures
    obtain ⟨items, hitems⟩ := exists_forall₂_iff.mpr hitems
    obtain ⟨signatures, hsignatures⟩ := exists_forall₂_iff.mpr hsignatures
    refine ⟨?_, h.challenge, hitemsArray, hsignaturesArray⟩
    cases hchallenge : doc.field? "randomness" with
    | none => exact ⟨⟨script, 0, items, signatures⟩, hscript, .inl ⟨hchallenge, rfl⟩, hitems, hsignatures⟩
    | some value =>
      obtain ⟨n, rfl⟩ := h.challenge value hchallenge
      exact ⟨⟨script, _, items, signatures⟩, hscript, .inr ⟨_, hchallenge, rfl⟩, hitems, hsignatures⟩
  · rintro ⟨⟨s, h⟩, htyped⟩
    exact {
      script := ⟨_, h.script⟩
      challenge := htyped.challenge
      items := forall_entries_iff.mp ⟨exists_of_forall₂ h.items, htyped.items⟩
      signatures := forall_entries_iff.mp ⟨exists_of_forall₂ h.signatures, htyped.signatures⟩ }

/-- Reading gives exactly the spend a document describes. The documents in the documented format are those that are read and
have the documented types. A challenge that is no number is refused as a wrong type; every other document that is refused is
refused as an argument that breaks a rule. -/
theorem spend_exactly (doc : Json) :
    (∀ s, spend doc = .ok s ↔ Describes doc s) ∧
      (Documented doc ↔ (∃ s, spend doc = .ok s) ∧ Typed doc) ∧
      (BadChallenge doc → ∃ e, spend doc = .error e ∧ e.category = .jsonType) ∧
      (¬BadChallenge doc → ∀ e, spend doc = .error e → e.category = .argument) := by
  refine ⟨fun s => spend_eq_ok, ?_, spend_of_badChallenge, fun hgood e h => ?_⟩
  · simp only [spend_eq_ok]
    exact documented_iff
  · exact (spend_eq_error h).resolve_left fun h => hgood h.1

/-- A document with a script, a challenge and an item is in the format and is read; a challenge in quotes is a wrong type, and
a script of one digit breaks a rule. -/
theorem spend_exactly_sample :
    (∃ s, spend (.object [("initial_stack", .array [.string "valid_signature"]), ("randomness", .number (.integer 7)),
      ("script", .string "ac")]) = .ok s) ∧
    (∃ e, spend (.object [("randomness", .string "7"), ("script", .string "ac")]) = .error e ∧ e.category = .jsonType) ∧
    ∃ e, spend (.object [("script", .string "a")]) = .error e ∧ e.category = .argument := by
  have hscript : Hex.Spells (Hex.utf8 "ac") [0xac] := decode_eq_ok.mp (by decide)
  refine ⟨((spend_exactly _).2.1.mp ?_).1, (spend_exactly _).2.2.1 ?_, ?_⟩
  · refine ⟨⟨[0xac], "ac", rfl, hscript⟩, ?_, ?_, nofun⟩
    · rintro _ ⟨⟩
      exact ⟨7, rfl⟩
    · rintro _ ⟨⟩
      exact ⟨_, rfl, List.forall_mem_singleton.mpr ⟨.validSignature, "valid_signature", rfl, .inl ⟨rfl, rfl⟩⟩⟩
  · exact ⟨⟨[0xac], "ac", rfl, hscript⟩, .string "7", rfl, nofun⟩
  · have hrefused : spend (.object [("script", .string "a")]) = .error (.oddHexLength "a") := by rfl
    refine ⟨_, hrefused, (spend_exactly _).2.2.2 ?_ _ hrefused⟩
    rintro ⟨-, value, h, -⟩
    cases h

/-- Reading does not ask for the documented format: it takes a challenge below zero. -/
theorem spend_documented_false : ¬∀ doc : Json, ((∃ s, spend doc = .ok s) ↔ Documented doc) ∧
    (¬Documented doc → ∃ e, spend doc = .error e ∧ e.category = .argument) := by
  intro h
  have hread : Describes (.object [("randomness", .number (.integer (-1))), ("script", .string "51")])
      ⟨[0x51], .ofWord (JsonNumber.integer (-1)).toWord, [], []⟩ :=
    ⟨⟨"51", rfl, decode_eq_ok.mp (by decide)⟩, .inr ⟨_, rfl, rfl⟩, .nil, .nil⟩
  have hdocumented := (h _).1.mp ⟨_, spend_eq_ok.mpr hread⟩
  obtain ⟨n, hn⟩ := hdocumented.challenge _ rfl
  injection hn with hn
  injection hn with hn
  exact absurd hn (by omega)

end Document

end ScriptCircuit
