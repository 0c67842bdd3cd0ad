import Mathlib
import ScriptCircuit.Proofs.Curve.Prime
import ScriptCircuit.Proofs.Curve.Residue

/-!
# The group of the curve

The chord and tangent law on points given by residues is addition in the group of the Weierstrass curve y² = x³ + 7, so its
laws come from there: double and add computes multiples, and sums of points of the curve stay on it.
-/

namespace ScriptCircuit.Curve

open Residue

/-- The curve over the field of residue classes. -/
def weierstrass : WeierstrassCurve.Affine (ZMod prime) where
  a₁ := 0
  a₂ := 0
  a₃ := 0
  a₄ := 0
  a₆ := 7

/-- Two numbers are the coordinates of a point of the curve. -/
def IsPoint (x y : Nat) : Prop :=
  x < prime ∧ y < prime ∧ (y : ZMod prime) ^ 2 = (x : ZMod prime) ^ 3 + 7

/-- The group of the curve. -/
abbrev Group := weierstrass.Point

/-- A positive number below the prime is not zero. -/
theorem natCast_ne_zero {k : Nat} (hpos : 0 < k) (hlt : k < prime) : (k : ZMod prime) ≠ 0 := by
  rw [Ne, ZMod.natCast_eq_zero_iff]
  exact Nat.not_dvd_of_pos_of_lt hpos hlt

/-- The points of the curve are the solutions of its equation, and none is singular. -/
theorem nonsingular_iff {x y : ZMod prime} : weierstrass.Nonsingular x y ↔ y * y = x * x * x + 7 := by
  have hdiscriminant : weierstrass.Δ ≠ 0 := by
    have h : weierstrass.Δ = -((21168 : Nat) : ZMod prime) := by
      simp only [WeierstrassCurve.Δ, WeierstrassCurve.b₂, WeierstrassCurve.b₄, WeierstrassCurve.b₆, WeierstrassCurve.b₈,
        weierstrass]
      norm_num
    rw [h, neg_ne_zero]
    exact natCast_ne_zero (by decide) (by decide)
  rw [← WeierstrassCurve.Affine.equation_iff_nonsingular_of_Δ_ne_zero hdiscriminant, WeierstrassCurve.Affine.equation_iff]
  simp only [weierstrass]
  ring_nf

/-- The opposite of a point has the opposite second coordinate. -/
theorem negY_eq (x y : ZMod prime) : weierstrass.negY x y = -y := by
  simp [WeierstrassCurve.Affine.negY, weierstrass]

/-- The slope of the tangent at a point that is not its own opposite. -/
theorem tangent_slope {x y₁ y₂ : ZMod prime} (hy : y₁ ≠ -y₂) :
    weierstrass.slope x x y₁ y₂ = 3 * (x * x) * (y₁ + y₁)⁻¹ := by
  rw [WeierstrassCurve.Affine.slope_of_Y_ne rfl (by rwa [negY_eq]), negY_eq, sub_neg_eq_add, div_eq_mul_inv]
  simp only [weierstrass]
  ring

/-- The sum of two elements, the opposite of the third one on their line. -/
theorem some_add_some {x₁ y₁ x₂ y₂ slope : ZMod prime} {h₁ : weierstrass.Nonsingular x₁ y₁}
    {h₂ : weierstrass.Nonsingular x₂ y₂} (hxy : ¬(x₁ = x₂ ∧ y₁ = -y₂)) (hslope : weierstrass.slope x₁ x₂ y₁ y₂ = slope) :
    ∃ h₃ : weierstrass.Nonsingular (slope * slope - x₁ - x₂) (slope * (x₁ - (slope * slope - x₁ - x₂)) - y₁),
      (.some _ _ h₁ + .some _ _ h₂ : Group) = .some _ _ h₃ := by
  have hx₃ : weierstrass.addX x₁ x₂ slope = slope * slope - x₁ - x₂ := by
    simp only [WeierstrassCurve.Affine.addX, weierstrass]
    ring
  have hy₃ : weierstrass.addY x₁ x₂ y₁ slope = slope * (x₁ - (slope * slope - x₁ - x₂)) - y₁ := by
    rw [WeierstrassCurve.Affine.addY, negY_eq, WeierstrassCurve.Affine.negAddY, hx₃]
    ring
  have hsum : (.some _ _ h₁ + .some _ _ h₂ : Group) = .some _ _ _ :=
    WeierstrassCurve.Affine.Point.add_some (by rwa [negY_eq])
  rw [← hy₃, ← hx₃, ← hslope]
  exact ⟨_, hsum⟩

/-- Points with opposite second coordinates add up to zero. -/
theorem some_add_some_eq_zero {x y₁ y₂ : ZMod prime} {h₁ : weierstrass.Nonsingular x y₁} {h₂ : weierstrass.Nonsingular x y₂}
    (hy : y₁ = -y₂) : (.some _ _ h₁ + .some _ _ h₂ : Group) = 0 :=
  WeierstrassCurve.Affine.Point.add_of_Y_eq rfl (by rwa [negY_eq])

namespace Point

/-- A point stands for an element of the group: the point at infinity for zero, any other for that with its coordinates. -/
inductive Represents : Point → Group → Prop where
  | infinity : Represents .infinity 0
  | affine {x y : Coordinate} (h : weierstrass.Nonsingular (toZMod x) (toZMod y)) : Represents (.affine x y) (.some _ _ h)

/-- The right side of the equation goes to that of the field. -/
theorem toZMod_cubic (x : Coordinate) : toZMod (cubic x) = toZMod x * toZMod x * toZMod x + 7 := by
  rw [cubic, toZMod_add, toZMod_mul, toZMod_mul]
  rfl

/-- The test for the curve is its equation. -/
theorem onCurve_affine_iff {x y : Coordinate} :
    (affine x y).onCurve = true ↔ toZMod y * toZMod y = toZMod x * toZMod x * toZMod x + 7 := by
  rw [onCurve, decide_eq_true_iff, ← toZMod_inj, toZMod_mul, toZMod_cubic]

/-- The test for the curve accepts exactly the coordinates of its points. -/
theorem onCurve_iff_isPoint {x y : Coordinate} : (affine x y).onCurve = true ↔ IsPoint x.val y.val := by
  rw [onCurve_affine_iff, IsPoint, and_iff_right x.isLt, and_iff_right y.isLt, natCast_val, natCast_val, pow_two, pow_three']

theorem onCurve_base : base.onCurve = true := by
  decide +kernel

/-- A point lies on the curve exactly when it stands for an element of the group. -/
theorem onCurve_iff_represents {p : Point} : p.onCurve = true ↔ ∃ P, p.Represents P := by
  cases p with
  | infinity => exact iff_of_true rfl ⟨0, .infinity⟩
  | affine x y =>
    rw [onCurve_affine_iff, ← nonsingular_iff]
    constructor
    · exact fun h => ⟨_, .affine h⟩
    · rintro ⟨P, hP⟩
      cases hP
      assumption

/-- A point stands for at most one element. -/
theorem Represents.unique {p : Point} {P Q : Group} (hP : p.Represents P) (hQ : p.Represents Q) : P = Q := by
  cases hP <;> cases hQ <;> rfl

/-- At most one point stands for an element. -/
theorem Represents.injective {p q : Point} {P : Group} (hp : p.Represents P) (hq : q.Represents P) : p = q := by
  cases hp with
  | infinity =>
    generalize hP : (0 : Group) = P at hq
    cases hq with
    | infinity => rfl
    | affine h => cases hP
  | @affine x y h =>
    generalize hP : (.some _ _ h : Group) = P at hq
    cases hq with
    | infinity => cases hP
    | @affine x' y' h' =>
      obtain ⟨hx, hy⟩ := WeierstrassCurve.Affine.Point.some.inj hP
      rw [toZMod_injective hx, toZMod_injective hy]

/-- The point that stands for an element other than zero is not at infinity. -/
theorem Represents.exists_affine {p : Point} {P : Group} (h : p.Represents P) (hne : P ≠ 0) :
    ∃ x y hxy, p = .affine x y ∧ P = .some (toZMod x) (toZMod y) hxy := by
  cases h with
  | infinity => exact absurd rfl hne
  | @affine x y hxy => exact ⟨x, y, hxy, rfl, rfl⟩

theorem toZMod_inv_coordinate (a : Coordinate) : toZMod (Residue.inv a) = (toZMod a)⁻¹ :=
  toZMod_inv (by decide) (by decide) a

/-- A chord of two points stands for the sum of the elements that they stand for. -/
theorem represents_chord {x₁ y₁ x₂ y₂ slope : Coordinate} {h₁ : weierstrass.Nonsingular (toZMod x₁) (toZMod y₁)}
    {h₂ : weierstrass.Nonsingular (toZMod x₂) (toZMod y₂)} (hxy : ¬(x₁ = x₂ ∧ y₁ = -y₂))
    (hslope : weierstrass.slope (toZMod x₁) (toZMod x₂) (toZMod y₁) (toZMod y₂) = toZMod slope) :
    (chord slope x₁ y₁ x₂).Represents (.some _ _ h₁ + .some _ _ h₂) := by
  have hxy' : ¬(toZMod x₁ = toZMod x₂ ∧ toZMod y₁ = -toZMod y₂) := by
    rwa [← toZMod_neg, toZMod_inj, toZMod_inj]
  have hexists : ∃ h₃, (.some _ _ h₁ + .some _ _ h₂ : Group) = .some _ _ h₃ := some_add_some hxy' hslope
  obtain ⟨h₃, hsum⟩ := hexists
  rw [hsum]
  clear hsum
  have hx₃ : toZMod (slope * slope - x₁ - x₂) = toZMod slope * toZMod slope - toZMod x₁ - toZMod x₂ := by
    rw [toZMod_sub, toZMod_sub, toZMod_mul]
  have hy₃ : toZMod (slope * (x₁ - (slope * slope - x₁ - x₂)) - y₁) =
      toZMod slope * (toZMod x₁ - (toZMod slope * toZMod slope - toZMod x₁ - toZMod x₂)) - toZMod y₁ := by
    rw [toZMod_sub, toZMod_mul, toZMod_sub, hx₃]
  revert h₃
  rw [← hy₃, ← hx₃]
  intro h₃
  exact .affine h₃

/-- The sum of two points stands for the sum. -/
theorem Represents.add {p q : Point} {P Q : Group} (hp : p.Represents P) (hq : q.Represents Q) : (p + q).Represents (P + Q) := by
  cases hp with
  | infinity =>
    rw [zero_add]
    exact hq
  | @affine x₁ y₁ h₁ =>
    cases hq with
    | infinity =>
      rw [add_zero]
      exact .affine h₁
    | @affine x₂ y₂ h₂ =>
      change (if x₁ = x₂ then if y₁ = -y₂ then .infinity else chord (3 * (x₁ * x₁) * Residue.inv (y₁ + y₁)) x₁ y₁ x₂
        else chord ((y₁ - y₂) * Residue.inv (x₁ - x₂)) x₁ y₁ x₂).Represents _
      by_cases hx : x₁ = x₂
      · subst hx
        rw [if_pos rfl]
        by_cases hy : y₁ = -y₂
        · rw [if_pos hy, some_add_some_eq_zero (by rw [hy, toZMod_neg])]
          exact .infinity
        · rw [if_neg hy]
          refine represents_chord (fun h => hy h.2) ?_
          rw [tangent_slope (by rwa [← toZMod_neg, Ne, toZMod_inj]), toZMod_mul, toZMod_inv_coordinate, toZMod_add, toZMod_mul,
            toZMod_mul]
          rfl
      · rw [if_neg hx]
        refine represents_chord (fun h => hx h.1) ?_
        rw [WeierstrassCurve.Affine.slope_of_X_ne (by rwa [Ne, toZMod_inj]), toZMod_mul, toZMod_inv_coordinate, toZMod_sub,
          toZMod_sub, div_eq_mul_inv]

/-- Double and add over enough bits stands for the sum and the multiple. -/
theorem Represents.mulRounds {rounds factor : Nat} {acc p : Point} {A P : Group} (hacc : acc.Represents A)
    (hp : p.Represents P) (h : factor < 2 ^ rounds) : (mulRounds rounds acc p factor).Represents (A + factor • P) := by
  induction rounds generalizing factor acc p A P with
  | zero =>
    obtain rfl : factor = 0 := Nat.lt_one_iff.mp h
    rw [zero_nsmul, add_zero]
    exact hacc
  | succ rounds ih =>
    rw [Point.mulRounds]
    by_cases hzero : factor = 0
    · rw [if_pos hzero, hzero, zero_nsmul, add_zero]
      exact hacc
    · rw [if_neg hzero]
      have hhalf : factor / 2 < 2 ^ rounds := by
        rw [pow_succ] at h
        omega
      have hsplit : factor • P = (factor % 2) • P + (factor / 2) • (P + P) := by
        rw [← two_nsmul, ← mul_nsmul', ← add_nsmul, Nat.mul_comm, Nat.mod_add_div]
      rw [hsplit, ← add_assoc]
      refine ih ?_ (hp.add hp) hhalf
      obtain hbit | hbit := Nat.mod_two_eq_zero_or_one factor
      · rw [hbit, if_neg (by decide), zero_nsmul, add_zero]
        exact hacc
      · rw [hbit, if_pos rfl, one_nsmul]
        exact hacc.add hp

/-- A multiple of a point stands for the multiple. -/
theorem Represents.mul {p : Point} {P : Group} (hp : p.Represents P) (k : Scalar) : (p.mul k).Represents (k.val • P) := by
  have hk : k.val < 2 ^ 256 := k.isLt.trans (by decide)
  have h := Represents.infinity.mulRounds hp hk
  rwa [zero_add] at h

end Point

end ScriptCircuit.Curve
