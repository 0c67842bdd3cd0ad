import Mathlib
import ScriptCircuit.Curve.Signature
import ScriptCircuit.Proofs.Curve.Order
import ScriptCircuit.Proofs.Curve.SerialForm

/-!
# Signatures verify

A signature verifies under the public key of the secret key it was made with: the point that verification computes is the
multiple of the base point by the nonce. The signature that fills a slot without one is a case of it. Signing fails only
where a part of the signature would be zero, since a multiple of the base point by a scalar other than zero is never at
infinity. Verification looks at a key modulo the prime, while reading refuses coordinates that are not below it.
-/

namespace ScriptCircuit

open Curve Residue

namespace Signature

/-- Multiples of the base point agree when their factors do modulo the order. -/
theorem nsmul_eq_of_natCast_eq {G : Group} (hG : Point.base.Represents G) {a b : Nat} (h : (a : ZMod order) = b) :
    a • G = b • G := by
  have hmod : ∀ n : Nat, n • G = (n % order) • G := by
    intro n
    nth_rewrite 1 [← Nat.mod_add_div n order]
    rw [add_nsmul, mul_nsmul, order_nsmul hG, nsmul_zero, add_zero]
  rw [hmod a, hmod b, (ZMod.natCast_eq_natCast_iff' _ _ _).mp h]

/-- The word of a scalar is its number. -/
theorem toNat_word (k : Scalar) : (word k).toNat = k.val := by
  refine (BitVec.toNat_ofNat _ _).trans (Nat.mod_eq_of_lt (k.isLt.trans ?_))
  decide

/-- A scalar other than zero is read back from its word. -/
theorem scalar?_word {k : Scalar} (h : k ≠ 0) : scalar? (word k) = some k := by
  have hword : word k ≠ 0 := by
    intro hzero
    have hval := congrArg BitVec.toNat hzero
    rw [toNat_word] at hval
    exact h (Fin.ext hval)
  rw [scalar?, dif_pos (by rw [toNat_word]; exact k.isLt), if_neg hword]
  simp only [toNat_word]

/-- A scalar is not zero. -/
theorem ne_zero_of_scalar? {w : Word} {k : Scalar} (h : scalar? w = some k) : k ≠ 0 := by
  unfold scalar? at h
  split at h
  · split at h
    · cases h
    next hw =>
      cases h
      intro hzero
      have hval : w.toNat = 0 := congrArg Fin.val hzero
      exact hw (BitVec.eq_of_toNat_eq hval)
  · cases h

theorem toZMod_inv_scalar (a : Scalar) : toZMod (Residue.inv a) = (toZMod a)⁻¹ :=
  toZMod_inv (by decide) (by decide) a

/-- What the signature of a hash is made of. -/
theorem sign_eq_ok {secret nonce hash : Word} {g : Signature} (h : sign secret nonce hash = .ok g) :
    ∃ sk k r, scalar? secret = some sk ∧ scalar? nonce = some k ∧ abscissa? (Point.base.mul k) = some r ∧
      r ≠ 0 ∧ (r * sk + .ofNat _ hash.toNat) * Residue.inv k ≠ 0 ∧
      g = ⟨word r, word ((r * sk + .ofNat _ hash.toNat) * Residue.inv k)⟩ := by
  unfold sign at h
  split at h
  next sk k hsk hk =>
    split at h
    · cases h
    next r hr =>
      dsimp only at h
      split at h
      · cases h
      next hzero =>
        cases h
        obtain ⟨hrne, hsne⟩ := not_or.mp hzero
        exact ⟨sk, k, r, hsk, hk, hr, hrne, hsne, rfl⟩
  · cases h

/-- The public key of a secret has the coordinates of its multiple of the base point. -/
theorem publicKey_of_affine {secret : Word} {sk : Scalar} {x y : Coordinate} (hsk : scalar? secret = some sk)
    (hpoint : Point.base.mul sk = .affine x y) : publicKey secret = .ok ⟨.ofNat 256 x.val, .ofNat 256 y.val⟩ := by
  unfold publicKey
  rw [hsk]
  dsimp only
  rw [hpoint]
  rfl

/-- The point of a public key is the multiple of the base point by the secret key. -/
theorem publicKey_eq_ok {secret : Word} {key : PublicKey} (h : publicKey secret = .ok key) {sk : Scalar}
    (hsk : scalar? secret = some sk) {G : Group} (hG : Point.base.Represents G) :
    ∃ q, key.toPoint? = some q ∧ q.Represents (sk.val • G) := by
  have hq := hG.mul sk
  cases hpoint : Point.base.mul sk with
  | infinity =>
    unfold publicKey at h
    rw [hsk] at h
    dsimp only at h
    rw [hpoint] at h
    cases h
  | affine x y =>
    rw [publicKey_of_affine hsk hpoint] at h
    rw [hpoint] at hq
    cases h
    have hcurve : (Point.affine x y).onCurve = true := Point.onCurve_iff_represents.mpr ⟨_, hq⟩
    refine ⟨.affine x y, ?_, hq⟩
    unfold PublicKey.toPoint?
    dsimp only
    rw [PublicKey.ofNat_toNat_coordinate, PublicKey.ofNat_toNat_coordinate, if_pos hcurve]

/-- The factors that verification takes of the base point and of the key's point add up to the nonce. -/
theorem factors_eq_nonce {sk k r s e : Scalar} (hk : k ≠ 0) (hs : s ≠ 0) (h : (r * sk + e) * Residue.inv k = s) :
    (((e * Residue.inv s).val + sk.val * (r * Residue.inv s).val : Nat) : ZMod order) = k.val := by
  have hk' : toZMod k ≠ 0 := mt toZMod_eq_zero.mp hk
  have hs' : toZMod s ≠ 0 := mt toZMod_eq_zero.mp hs
  have hproduct : toZMod s * toZMod k = toZMod r * toZMod sk + toZMod e := by
    rw [← h, toZMod_mul, toZMod_add, toZMod_mul, toZMod_inv_scalar, inv_mul_cancel_right₀ hk']
  rw [Nat.cast_add, Nat.cast_mul, natCast_val, natCast_val, natCast_val, natCast_val, toZMod_mul, toZMod_mul, toZMod_inv_scalar]
  field_simp
  linear_combination -hproduct

/-- A signature verifies under the public key of its secret key. -/
theorem verifies_of_sign {secret nonce hash : Word} {g : Signature} {key : PublicKey} (hsign : sign secret nonce hash = .ok g)
    (hkey : publicKey secret = .ok key) : g.verifies key hash = true := by
  obtain ⟨sk, k, r, hsk, hk, hr, hrne, hsne, hg⟩ := sign_eq_ok hsign
  have hG := represents_baseElement
  obtain ⟨q, hq, hrepresents⟩ := publicKey_eq_ok hkey hsk hG
  generalize hs : (r * sk + Fin.ofNat order hash.toNat) * Residue.inv k = s at hsne hg
  subst hg
  have hsum := (hG.mul (.ofNat _ hash.toNat * Residue.inv s)).add (hrepresents.mul (r * Residue.inv s))
  have hfactor : (Fin.ofNat order hash.toNat * Residue.inv s).val • baseElement +
      (r * Residue.inv s).val • sk.val • baseElement = k.val • baseElement := by
    rw [← mul_nsmul, ← add_nsmul]
    exact nsmul_eq_of_natCast_eq hG (factors_eq_nonce (ne_zero_of_scalar? hk) hsne hs)
  rw [hfactor] at hsum
  unfold verifies
  dsimp only
  rw [scalar?_word hrne, scalar?_word hsne, hq]
  dsimp only
  rw [hsum.injective (hG.mul k), hr]
  exact decide_eq_true rfl

/-- The signature that fills a slot verifies under the key of that slot. -/
theorem paddingSignature_verifies :
    ∃ g, paddingSignature = .ok g ∧ g.verifies PublicKey.generator messageHash = true := by
  have hok : paddingSignature.isOk = true := by decide +kernel
  have hkey : publicKey 1 = .ok PublicKey.generator := by decide +kernel
  cases hpadding : paddingSignature with
  | error e =>
    rw [hpadding] at hok
    cases hok
  | ok g => exact ⟨g, rfl, verifies_of_sign hpadding hkey⟩

/-! ## When signing succeeds -/

/-- A word between zero and the order is a scalar. -/
theorem scalar?_of_lt {w : Word} (hpos : 0 < w.toNat) (hlt : w.toNat < order) : scalar? w = some ⟨w.toNat, hlt⟩ := by
  rw [scalar?, dif_pos hlt, if_neg]
  rintro rfl
  exact absurd hpos (by decide)

/-- A multiple of the base point by a scalar other than zero is not at infinity. -/
theorem exists_mul_base {k : Scalar} (h : 0 < k.val) :
    ∃ x y hxy, Point.base.mul k = .affine x y ∧ k.val • baseElement = .some (toZMod x) (toZMod y) hxy := by
  have hne : k.val • baseElement ≠ 0 := mt nsmul_baseElement_eq_zero.mp (Nat.not_dvd_of_pos_of_lt h k.isLt)
  exact (represents_baseElement.mul k).exists_affine hne

/-- The signature of a hash, in terms of the coordinates of the nonce's multiple of the base point. -/
theorem sign_of_affine {secret nonce : Word} {sk k : Scalar} {x y : Coordinate} (hsk : scalar? secret = some sk)
    (hk : scalar? nonce = some k) (hpoint : Point.base.mul k = .affine x y) (hash : Word) {r s : Scalar}
    (hr : r = .ofNat _ x.val) (hs : s = (r * sk + .ofNat _ hash.toNat) * Residue.inv k) :
    sign secret nonce hash = if r = 0 ∨ s = 0 then .error .degenerateNonce else .ok ⟨word r, word s⟩ := by
  unfold sign
  rw [hsk, hk]
  dsimp only
  rw [hpoint, abscissa?]
  dsimp only
  rw [← hr, ← hs]
  rfl

/-- Let the nonce's multiple of the base point have the first coordinate `x`. The signature of a hash consists of
`r = x` and `s = (hash + r * secret) / nonce` modulo the order, and verifies under the public key of the secret key. The nonce
is refused when one of them is zero, and only then. -/
theorem sign_verifies {secret nonce : Word} (hsecret : 0 < secret.toNat ∧ secret.toNat < order)
    (hnonce : 0 < nonce.toNat ∧ nonce.toNat < order) (hash : Word) :
    ∃ x y hxy, nonce.toNat • baseElement = .some x y hxy ∧
      let r : ZMod order := x.val
      let s : ZMod order := (nonce.toNat : ZMod order)⁻¹ * (hash.toNat + r * secret.toNat)
      (r = 0 ∨ s = 0 → ∃ e, sign secret nonce hash = .error e ∧ e.category = .argument) ∧
        (¬(r = 0 ∨ s = 0) → ∃ g key, sign secret nonce hash = .ok g ∧ g.r.toNat = r.val ∧ g.s.toNat = s.val ∧
          publicKey secret = .ok key ∧ g.verifies key hash = true) := by
  have hsk := scalar?_of_lt hsecret.1 hsecret.2
  have hk := scalar?_of_lt hnonce.1 hnonce.2
  obtain ⟨kx, ky, -, hsecretPoint, -⟩ := exists_mul_base (k := ⟨secret.toNat, hsecret.2⟩) hsecret.1
  obtain ⟨x, y, hxy, hpoint, helement⟩ := exists_mul_base (k := ⟨nonce.toNat, hnonce.2⟩) hnonce.1
  refine ⟨_, _, hxy, helement, ?_⟩
  intro r s
  obtain ⟨r', hr'⟩ : ∃ r' : Scalar, r' = .ofNat _ x.val := ⟨_, rfl⟩
  obtain ⟨s', hs'⟩ : ∃ s' : Scalar, s' =
      (r' * ⟨secret.toNat, hsecret.2⟩ + .ofNat _ hash.toNat) * Residue.inv ⟨nonce.toNat, hnonce.2⟩ := ⟨_, rfl⟩
  have hr : toZMod r' = r := by rw [hr', toZMod_ofNat, ← val_toZMod x]
  have hs : toZMod s' = s := by
    rw [hs', toZMod_mul, toZMod_add, toZMod_mul, toZMod_ofNat, toZMod_inv_scalar, hr, mul_comm, add_comm]
    rfl
  have hzero : r' = 0 ∨ s' = 0 ↔ r = 0 ∨ s = 0 := by rw [← hr, ← hs, toZMod_eq_zero, toZMod_eq_zero]
  have hsign := sign_of_affine hsk hk hpoint hash hr' hs'
  constructor
  · intro h
    rw [if_pos (hzero.mpr h)] at hsign
    exact ⟨_, hsign, rfl⟩
  · intro h
    rw [if_neg (mt hzero.mp h)] at hsign
    have hkey := publicKey_of_affine hsk hsecretPoint
    refine ⟨_, _, hsign, ?_, ?_, hkey, verifies_of_sign hsign hkey⟩
    · rw [toNat_word, ← hr, val_toZMod]
    · rw [toNat_word, ← hs, val_toZMod]

/-- A hash above the order is signed, and one that makes the second part zero is refused. -/
theorem sign_verifies_small :
    (∃ g key, sign 5 3 (.ofNat 256 (order + 1)) = .ok g ∧ publicKey 5 = .ok key ∧
        g.verifies key (.ofNat 256 (order + 1)) = true) ∧
      ∃ e, sign 1 1 (.ofNat 256 (order - Ladder.baseX)) = .error e ∧ e.category = .argument := by
  have hone : 0 < (1 : Word).toNat ∧ (1 : Word).toNat < order := by decide
  have hthree : 0 < (3 : Word).toNat ∧ (3 : Word).toNat < order := by decide
  have hfive : 0 < (5 : Word).toNat ∧ (5 : Word).toNat < order := by decide
  constructor
  · obtain ⟨x, y, hxy, -, hrefused, hsigned⟩ := sign_verifies hfive hthree (.ofNat 256 (order + 1))
    have hok : (sign 5 3 (.ofNat 256 (order + 1))).isOk = true := by decide +kernel
    obtain ⟨g, key, hg, -, -, hkey, hverifies⟩ := hsigned fun hzero => by
      obtain ⟨e, he, -⟩ := hrefused hzero
      rw [he] at hok
      cases hok
    exact ⟨g, key, hg, hkey, hverifies⟩
  · obtain ⟨x, y, hxy, -, hrefused, hsigned⟩ := sign_verifies hone hone (.ofNat 256 (order - Ladder.baseX))
    have hfails : (sign 1 1 (.ofNat 256 (order - Ladder.baseX))).isOk = false := by decide +kernel
    refine hrefused (by_contra fun hzero => ?_)
    obtain ⟨g, key, hg, -⟩ := hsigned hzero
    rw [hg] at hfails
    cases hfails

end Signature

/-! ## The keys that signatures verify under -/

namespace PublicKey

/-- The key with its coordinates modulo the prime. -/
def reduced (key : PublicKey) : PublicKey :=
  ⟨.ofNat 256 (key.x.toNat % prime), .ofNat 256 (key.y.toNat % prime)⟩

theorem toNat_reduced (n : Nat) : (BitVec.ofNat 256 (n % prime)).toNat = n % prime :=
  toNat_ofNat_coordinate (.ofNat _ n)

/-- A key stands for a point if it does so modulo the prime. -/
theorem toPoint?_eq_some {key : PublicKey} {q : Point} (h : key.toPoint? = some q) :
    IsPoint key.reduced.x.toNat key.reduced.y.toNat := by
  obtain ⟨hcurve, -⟩ := Option.ite_none_right_eq_some.mp h
  rw [reduced, toNat_reduced, toNat_reduced]
  exact Point.onCurve_iff_isPoint.mp hcurve

/-- Keys that agree modulo the prime give the same point. -/
theorem toPoint?_congr {key other : PublicKey} (h : other.reduced = key.reduced) : other.toPoint? = key.toPoint? := by
  have hmod : ∀ {v w : Word}, BitVec.ofNat 256 (v.toNat % prime) = BitVec.ofNat 256 (w.toNat % prime) →
      Fin.ofNat prime v.toNat = Fin.ofNat prime w.toNat := by
    intro v w h
    have hval := congrArg BitVec.toNat h
    rw [toNat_reduced, toNat_reduced] at hval
    exact Fin.ext hval
  obtain ⟨hx, hy⟩ := PublicKey.mk.inj h
  unfold toPoint?
  rw [hmod hx, hmod hy]

/-- A key with coordinates below the prime is reduced. -/
theorem reduced_of_lt {key : PublicKey} (hx : key.x.toNat < prime) (hy : key.y.toNat < prime) : key.reduced = key := by
  rw [reduced, Nat.mod_eq_of_lt hx, Nat.mod_eq_of_lt hy, BitVec.ofNat_toNat, BitVec.ofNat_toNat, BitVec.setWidth_eq,
    BitVec.setWidth_eq]

end PublicKey

namespace Signature

/-- A key under which a signature verifies gives a point. -/
theorem toPoint?_of_verifies {g : Signature} {key : PublicKey} {hash : Word} (h : g.verifies key hash = true) :
    ∃ q, key.toPoint? = some q := by
  unfold verifies at h
  split at h
  next q _ _ hq => exact ⟨_, hq⟩
  next => cases h

/-- A signature verifies under a key for what the key is modulo the prime: it verifies under every key that is the same
there, the key modulo the prime is a point and read back from its serial form, and the key itself is read back exactly if
both of its coordinates lie below the prime. -/
theorem verifies_modulo_prime {g : Signature} {key : PublicKey} {hash : Word} (h : g.verifies key hash = true) :
    (∀ other : PublicKey, other.reduced = key.reduced → g.verifies other hash = true) ∧
      PublicKey.parse (key.reduced.serialize false) = .ok key.reduced ∧
      (PublicKey.parse (key.serialize false) = .ok key ↔ key.x.toNat < prime ∧ key.y.toNat < prime) := by
  obtain ⟨q, hq⟩ := toPoint?_of_verifies h
  have hpoint := PublicKey.toPoint?_eq_some hq
  refine ⟨fun other hother => ?_, PublicKey.parse_serialize hpoint false, ?_⟩
  · rw [verifies, PublicKey.toPoint?_congr hother]
    exact h
  · rw [PublicKey.parse_serialize_full_iff]
    refine ⟨fun hkey => ⟨hkey.1, hkey.2.1⟩, fun ⟨hx, hy⟩ => ?_⟩
    rwa [PublicKey.reduced_of_lt hx hy] at hpoint

/-- The first coordinate of the sum of the base point and the point with the first coordinate one and an even second one. -/
def shiftedSum : Word :=
  0x57d783579d03d9ab67a8aa7ad9b75a66ebca4ebce1b5be71442db1307f9146a8

/-- The point with the first coordinate one and an even second one, with the prime added to the one. -/
def shiftedKey : PublicKey :=
  ⟨0xfffffffffffffffffffffffffffffffffffffffffffffffffffffffefffffc30,
    0x4218f20ae6c646b363db68605822fb14264ca8d2587fdd6fbc750d587e76a7ee⟩

theorem verifies_shifted : verifies ⟨shiftedSum, shiftedSum⟩ shiftedKey shiftedSum = true := by
  decide +kernel

/-- A signature that verifies under a key whose first coordinate is not reduced, and under the reduced key. -/
theorem verifies_modulo_prime_shifted : verifies ⟨shiftedSum, shiftedSum⟩ shiftedKey shiftedSum = true ∧
    PublicKey.parse (shiftedKey.reduced.serialize false) = .ok shiftedKey.reduced ∧
    verifies ⟨shiftedSum, shiftedSum⟩ shiftedKey.reduced shiftedSum = true := by
  obtain ⟨hother, hread, -⟩ := verifies_modulo_prime verifies_shifted
  exact ⟨verifies_shifted, hread, hother _ (by decide)⟩

/-- A signature verifies under a key that is not read back from its serial form. -/
theorem verifies_read_false : verifies ⟨shiftedSum, shiftedSum⟩ shiftedKey shiftedSum = true ∧
    PublicKey.parse (shiftedKey.serialize false) ≠ .ok shiftedKey := by
  refine ⟨verifies_shifted, ?_⟩
  rw [Ne, PublicKey.parse_serialize_full_iff]
  exact fun hpoint => absurd hpoint.1 (by decide)

end Signature

end ScriptCircuit
