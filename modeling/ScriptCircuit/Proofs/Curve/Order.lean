import Mathlib
import ScriptCircuit.Proofs.Curve.Group

/-!
# The order of the base point

The multiple of the base point by its order is zero. The order less one is reached by doubling and adding from its first
bit on, in coordinates without division: (x, y, z) shows the element with the coordinates x/z² and y/z³ as long as z is not
zero. A step of this ladder passes its results on as numbers, so the kernel never holds a long unevaluated sum.
-/

namespace ScriptCircuit.Curve

namespace Ladder

/-- Three coordinates show an element unless the last one is zero. -/
def Shows (x y z : ZMod prime) (P : Group) : Prop :=
  z ≠ 0 → ∃ h, P = .some (x / z ^ 2) (y / z ^ 3) h

section Formulas

variable {x y z x' y' z' : ZMod prime}

/-- The sum of two elements in coordinates without division, for the slope of their line. -/
theorem add_eq_some (slope : ZMod prime) {x₁ y₁ x₂ y₂ : ZMod prime} {h₁ : weierstrass.Nonsingular x₁ y₁}
    {h₂ : weierstrass.Nonsingular x₂ y₂} (hxy : ¬(x₁ = x₂ ∧ y₁ = -y₂)) (hslope : weierstrass.slope x₁ x₂ y₁ y₂ = slope)
    (hx : slope * slope - x₁ - x₂ = x' / z' ^ 2) (hy : slope * (x₁ - x' / z' ^ 2) - y₁ = y' / z' ^ 3) :
    ∃ h, (.some _ _ h₁ + .some _ _ h₂ : Group) = .some (x' / z' ^ 2) (y' / z' ^ 3) h := by
  rw [← hy, ← hx]
  exact some_add_some hxy hslope

/-- Doubling without division. -/
theorem Shows.double {P : Group} (h : Shows x y z P) (hz : z' = 2 * y * z)
    (hx : x' = (3 * (x * x)) ^ 2 - 2 * (4 * x * (y * y))) (hy : y' = 3 * (x * x) * (4 * x * (y * y) - x') - 8 * (y * y) ^ 2) :
    Shows x' y' z' (P + P) := by
  intro hz'
  subst hz
  obtain ⟨⟨htwo, hyne⟩, hzne⟩ := (mul_ne_zero_iff.trans (and_congr_left' mul_ne_zero_iff)).mp hz'
  obtain ⟨hP, rfl⟩ := h hzne
  have hopposite : y / z ^ 3 ≠ -(y / z ^ 3) := by
    intro heq
    have hsum : 2 * y / z ^ 3 = 0 := by linear_combination heq
    exact div_ne_zero (mul_ne_zero htwo hyne) (pow_ne_zero 3 hzne) hsum
  refine add_eq_some (3 * (x * x) / (2 * y * z)) (fun h => hopposite h.2) ?_ ?_ ?_
  · rw [tangent_slope hopposite, ← two_mul]
    field_simp
  · rw [hx]
    field_simp
    ring
  · rw [hy]
    field_simp
    ring

/-- Adding an element with given coordinates without division. -/
theorem Shows.add {px py : ZMod prime} {P : Group} {hp : weierstrass.Nonsingular px py} (h : Shows x y z P) {dx dy : ZMod prime}
    (hdx : dx = px * (z * z) - x) (hdy : dy = py * (z * z * z) - y) (hz : z' = z * dx)
    (hx : x' = dy * dy - dx * (dx * dx) - 2 * (x * (dx * dx))) (hy : y' = dy * (x * (dx * dx) - x') - y * (dx * (dx * dx))) :
    Shows x' y' z' (P + .some _ _ hp) := by
  intro hz'
  subst hz
  obtain ⟨hzne, hdxne⟩ := mul_ne_zero_iff.mp hz'
  obtain ⟨hP, rfl⟩ := h hzne
  have hpx : px = (dx + x) / z ^ 2 := by
    rw [hdx]
    field_simp
    ring
  have hpy : py = (dy + y) / z ^ 3 := by
    rw [hdy]
    field_simp
    ring
  have hapart : x / z ^ 2 ≠ px := by
    intro heq
    have hzero : dx / z ^ 2 = 0 := by linear_combination -hpx - heq
    exact div_ne_zero hdxne (pow_ne_zero 2 hzne) hzero
  refine add_eq_some (dy / (z * dx)) (fun h => hapart h.1) ?_ ?_ ?_
  · have hrise : y / z ^ 3 - py = -(dy / z ^ 3) := by linear_combination -hpy
    have hrun : x / z ^ 2 - px = -(dx / z ^ 2) := by linear_combination -hpx
    rw [WeierstrassCurve.Affine.slope_of_X_ne hapart, hrise, hrun, neg_div_neg_eq]
    field_simp
  · rw [hx, hpx]
    field_simp
    ring
  · rw [hy]
    field_simp

end Formulas

/-- Passes a number on. -/
def force {α : Type} (x : Nat) (next : Nat → α) : α :=
  match x with
  | 0 => next 0
  | n + 1 => next (n + 1)

/-- Passing a number on changes nothing but the order of evaluation. -/
theorem force_eq {α : Type} (x : Nat) (next : Nat → α) : force x next = next x := by
  cases x <;> rfl

/-- The first coordinate of the base point. -/
def baseX : Nat := 0x79be667ef9dcbbac55a06295ce870b07029bfcdb2dce28d959f2815b16f81798

/-- The second coordinate of the base point. -/
def baseY : Nat := 0x483ada7726a3c4655da4fbfc0e1108a8fd17b448a68554199c47d08ffb10d4b8

/-- A number whose class is the opposite. -/
def opposite (x : Nat) : Nat :=
  prime - x % prime

theorem natCast_opposite (x : Nat) : (opposite x : ZMod prime) = -x := by
  rw [opposite, Nat.cast_sub (Nat.mod_lt x (by decide)).le, ZMod.natCast_self, zero_sub, ZMod.natCast_mod]

/-- The doubled coordinates are passed on. -/
def double (x y z : Nat) (next : Nat → Nat → Nat → Bool) : Bool :=
  force (y * y % prime) fun yy =>
  force (4 * x * yy % prime) fun d =>
  force (3 * (x * x) % prime) fun e =>
  force ((e * e + 2 * opposite d) % prime) fun x' =>
  force ((e * (d + opposite x') + 8 * (yy * opposite yy)) % prime) fun y' =>
  force (2 * y * z % prime) fun z' => next x' y' z'

/-- The coordinates of the sum with the base point are passed on. -/
def addBase (x y z : Nat) (next : Nat → Nat → Nat → Bool) : Bool :=
  force (z * z % prime) fun zz =>
  force ((baseX * zz + opposite x) % prime) fun dx =>
  force ((baseY * (z * zz) + opposite y) % prime) fun dy =>
  force (dx * dx % prime) fun square =>
  force (dx * square % prime) fun cube =>
  force (x * square % prime) fun v =>
  force ((dy * dy + opposite cube + 2 * opposite v) % prime) fun x' =>
  force ((dy * (v + opposite x') + y * opposite cube) % prime) fun y' =>
  force (z * dx % prime) fun z' => next x' y' z'

/-- The coordinates show the opposite of the base point. -/
def isOpposite (x y z : Nat) : Bool :=
  z % prime != 0 && x % prime == baseX * (z * z) % prime && (y + baseY * (z * z * z)) % prime == 0

/-- Doubles, and adds the base point where the order less one has a bit, from a bit down to the first, and checks that the
opposite of the base point is reached. -/
def climb : Nat → Nat → Nat → Nat → Bool
  | 0, x, y, z => isOpposite x y z
  | i + 1, x, y, z =>
    double x y z fun x y z => if (order - 1).testBit i then addBase x y z (climb i) else climb i x y z

/-- Doubling coordinates doubles the element they show. -/
theorem double_spec {x y z : Nat} {next : Nat → Nat → Nat → Bool} (h : double x y z next = true) {P : Group}
    (hP : Shows x y z P) : ∃ x' y' z', next x' y' z' = true ∧ Shows x' y' z' (P + P) := by
  simp only [double, force_eq] at h
  refine ⟨_, _, _, h, hP.double ?_ ?_ ?_⟩
  all_goals
    simp only [ZMod.natCast_mod, Nat.cast_add, Nat.cast_mul, natCast_opposite]
    push_cast
    ring

/-- Adding the base coordinates adds the base element. -/
theorem addBase_spec {x y z : Nat} {next : Nat → Nat → Nat → Bool} (h : addBase x y z next = true) {P : Group}
    (hP : Shows x y z P) {hbase : weierstrass.Nonsingular baseX baseY} :
    ∃ x' y' z', next x' y' z' = true ∧ Shows x' y' z' (P + .some _ _ hbase) := by
  simp only [addBase, force_eq] at h
  refine ⟨_, _, _, h, hP.add rfl rfl ?_ ?_ ?_⟩
  all_goals
    simp only [ZMod.natCast_mod, Nat.cast_add, Nat.cast_mul, natCast_opposite]
    push_cast
    ring

/-- Coordinates that pass the test show the opposite of the base element. -/
theorem isOpposite_spec {x y z : Nat} (h : isOpposite x y z = true) {P : Group} (hP : Shows x y z P)
    {hbase : weierstrass.Nonsingular baseX baseY} : P = -.some _ _ hbase := by
  simp only [isOpposite, Bool.and_eq_true, bne_iff_ne, beq_iff_eq] at h
  obtain ⟨⟨hz, hx⟩, hy⟩ := h
  have hzne : (z : ZMod prime) ≠ 0 := by
    rwa [Ne, ZMod.natCast_eq_zero_iff, Nat.dvd_iff_mod_eq_zero]
  have hx' : (x : ZMod prime) = baseX * (z * z) := by
    exact_mod_cast (ZMod.natCast_eq_natCast_iff' _ _ _).mpr hx
  have hy' : (y : ZMod prime) + baseY * (z * z * z) = 0 := by
    exact_mod_cast (ZMod.natCast_eq_zero_iff _ _).mpr (Nat.dvd_of_mod_eq_zero hy)
  obtain ⟨hP, rfl⟩ := hP hzne
  rw [WeierstrassCurve.Affine.Point.neg_some, WeierstrassCurve.Affine.Point.some.injEq, negY_eq]
  constructor
  · rw [hx']
    field_simp
  · rw [eq_neg_of_add_eq_zero_left hy']
    field_simp

/-- A number is twice its half and its lowest bit. -/
theorem shiftRight_eq (n i : Nat) : n >>> i = 2 * n >>> (i + 1) + (n.testBit i).toNat := by
  rw [Nat.toNat_testBit, Nat.shiftRight_succ, Nat.shiftRight_eq_div_pow, Nat.div_add_mod]

/-- The ladder goes up to the order less one. -/
theorem climb_spec {i x y z : Nat} {hbase : weierstrass.Nonsingular baseX baseY} (h : climb i x y z = true)
    (hP : Shows x y z (((order - 1) >>> i) • (.some _ _ hbase : Group))) :
    ((order - 1) • (.some _ _ hbase : Group)) = -.some _ _ hbase := by
  -- The coordinates show the multiple by the bits above the present one.
  induction i generalizing x y z with
  | zero => exact isOpposite_spec h hP
  | succ i ih =>
    obtain ⟨x', y', z', hnext, hdouble⟩ := double_spec h hP
    have hshift := shiftRight_eq (order - 1) i
    cases hbit : (order - 1).testBit i with
    | false =>
      rw [hbit, Bool.toNat_false, Nat.add_zero] at hshift
      rw [hbit, if_neg Bool.false_ne_true] at hnext
      refine ih hnext ?_
      rwa [hshift, mul_nsmul', two_nsmul]
    | true =>
      rw [hbit, Bool.toNat_true] at hshift
      rw [hbit, if_pos rfl] at hnext
      obtain ⟨x'', y'', z'', hnext', hadd⟩ := addBase_spec hnext hdouble
      refine ih hnext' ?_
      rwa [hshift, add_nsmul, one_nsmul, mul_nsmul', two_nsmul]

/-- The element of the base point. -/
theorem base_represents : ∃ h : weierstrass.Nonsingular (baseX : ZMod prime) (baseY : ZMod prime),
    Point.base.Represents (.some _ _ h) := by
  obtain ⟨G, hG⟩ := Point.onCurve_iff_represents.mp Point.onCurve_base
  cases hG with
  | affine h => exact ⟨h, .affine h⟩

/-- The order less one, bit by bit, leads to the opposite of the base point. -/
theorem climb_reaches : climb 255 baseX baseY 1 = true := by
  decide +kernel

end Ladder

/-- The order times the element of the base point is zero. -/
theorem order_nsmul {G : Group} (hG : Point.base.Represents G) : order • G = 0 := by
  obtain ⟨hbase, hrepresents⟩ := Ladder.base_represents
  obtain rfl := hG.unique hrepresents
  have hstart : Ladder.Shows Ladder.baseX Ladder.baseY (1 : Nat) (((order - 1) >>> 255) • (.some _ _ hbase : Group)) := by
    have hfirst : (order - 1) >>> 255 = 1 := by decide
    intro _
    simp only [Nat.cast_one, one_pow, div_one, hfirst, one_nsmul]
    exact ⟨hbase, trivial⟩
  have hlast := Ladder.climb_spec Ladder.climb_reaches hstart
  have hsucc : order = order - 1 + 1 := rfl
  rw [hsucc, add_nsmul, one_nsmul, hlast, neg_add_cancel]

/-- The element of the group that the base point stands for. -/
noncomputable def baseElement : Group :=
  .some _ _ Ladder.base_represents.choose

theorem represents_baseElement : Point.base.Represents baseElement :=
  Ladder.base_represents.choose_spec

/-- The order is prime, so it is the least number of times that the base point adds up to zero. -/
theorem nsmul_baseElement_eq_zero {k : Nat} : k • baseElement = 0 ↔ order ∣ k := by
  have hne : baseElement ≠ 0 := WeierstrassCurve.Affine.Point.some_ne_zero _
  rw [← addOrderOf_dvd_iff_nsmul_eq_zero, addOrderOf_eq_prime (order_nsmul represents_baseElement) hne]

end ScriptCircuit.Curve
