import Mathlib.AlgebraicGeometry.EllipticCurve.Affine.Point
import Mathlib.Tactic.FieldSimp
import PrivateMatching.Proofs.P256.Cubic
import PrivateMatching.Proofs.Squares

/-!
# Points of P-256 as points of an elliptic curve

Jacobian coordinates stand for points of the elliptic curve (`Jacobian.StandsFor`):
adding and doubling coordinates is adding and doubling points, whichever case
they take (`Jacobian.StandsFor.add`), so multiples of coordinates stand for
multiples of points (`Jacobian.value_smul`).
-/

namespace PrivateMatching

namespace P256

open PrivateMatching.Modular WeierstrassCurve.Affine

/-- The curve as an elliptic curve over the integers modulo the prime. -/
def curve : WeierstrassCurve.Affine (ZMod fieldPrime) := ⟨0, 0, 0, toZMod (-3), constB⟩

variable {x y : ZMod fieldPrime}

theorem curve_equation_iff : curve.Equation x y ↔ y ^ 2 = x ^ 3 - 3 * x + constB := by
  rw [equation_iff]
  simp only [curve, toZMod_neg, toZMod_literal]
  constructor <;> intro h <;> linear_combination h

theorem ne_zero_of_equation (h : curve.Equation x y) : y ≠ 0 := by
  rintro rfl
  rw [curve_equation_iff, zero_pow two_ne_zero] at h
  exact cubic_ne_zero x h.symm

/-- No point of the curve is its own negative. -/
theorem ne_negY_of_equation (h : curve.Equation x y) : y ≠ curve.negY x y := by
  intro hneg
  simp only [negY, curve] at hneg
  have hdouble : 2 * y = 0 := by linear_combination hneg
  exact ne_zero_of_equation h ((mul_eq_zero.1 hdouble).resolve_left two_ne_zero)

theorem nonsingular_of_equation (h : curve.Equation x y) : curve.Nonsingular x y :=
  (nonsingular_iff ..).2 ⟨h, .inr (ne_negY_of_equation h)⟩

/-! ## Coordinates of a point -/

/-- Coordinates stand for a point. -/
def Jacobian.StandsFor (p : Jacobian) : curve.Point → Prop
  | .zero => toZMod p.z = 0
  | .some x y _ =>
    toZMod p.z ≠ 0 ∧ toZMod p.x = x * toZMod p.z ^ 2 ∧ toZMod p.y = y * toZMod p.z ^ 3

namespace Jacobian.StandsFor

variable {p q : Jacobian} {P Q : curve.Point}

theorem infinity : Jacobian.infinity.StandsFor 0 := toZMod_zero

/-- Coordinates stand for one point. -/
theorem unique (hP : p.StandsFor P) (hQ : p.StandsFor Q) : P = Q := by
  rcases P with _ | ⟨x₁, y₁, h₁⟩ <;> rcases Q with _ | ⟨x₂, y₂, h₂⟩
  · rfl
  · exact absurd hP hQ.1
  · exact absurd hQ hP.1
  · obtain ⟨hz, hx₁, hy₁⟩ := hP
    obtain ⟨_, hx₂, hy₂⟩ := hQ
    rw [Point.some.injEq]
    exact ⟨mul_right_cancel₀ (pow_ne_zero 2 hz) (hx₁.symm.trans hx₂),
      mul_right_cancel₀ (pow_ne_zero 3 hz) (hy₁.symm.trans hy₂)⟩

/-- The double of coordinates stands for the double of the point. -/
theorem double (hp : p.StandsFor P) : p.double.StandsFor (P + P) := by
  rcases P with _ | ⟨x, y, h⟩
  · have hz : toZMod p.z = 0 := hp
    change toZMod p.double.z = 0
    rw [Jacobian.double, toZMod_mul, toZMod_mul, hz, mul_zero, mul_zero]
  · obtain ⟨hz, hx, hy⟩ := hp
    have hne := ne_negY_of_equation h.1
    have hy0 := ne_zero_of_equation h.1
    have hslope : curve.slope x x y y * (2 * y) = 3 * x ^ 2 - 3 := by
      have hden : y - curve.negY x y = 2 * y := by
        simp only [negY, curve]
        ring
      rw [slope_of_Y_ne rfl hne, hden, div_mul_cancel₀ _ (mul_ne_zero two_ne_zero hy0)]
      simp only [curve, toZMod_neg, toZMod_literal]
      ring
    rw [Point.add_self_of_Y_ne hne, StandsFor]
    generalize curve.slope x x y y = l at hslope
    -- The numerator of the slope in coordinates.
    have halpha : 3 * ((toZMod p.x - toZMod p.z * toZMod p.z) *
        (toZMod p.x + toZMod p.z * toZMod p.z)) = l * (2 * (toZMod p.y * toZMod p.z)) := by
      rw [hx, hy]
      linear_combination (-toZMod p.z ^ 4) * hslope
    simp only [Jacobian.double, toZMod_add, toZMod_sub, toZMod_mul, toZMod_literal,
      halpha, addX, addY, negAddY, negY, curve]
    rw [hx, hy]
    refine ⟨?_, by ring, by ring⟩
    exact mul_ne_zero two_ne_zero (mul_ne_zero (mul_ne_zero hy0 (pow_ne_zero 3 hz)) hz)

section Sum

variable {x₁ y₁ x₂ y₂ : ZMod fieldPrime} {h₁ : curve.Nonsingular x₁ y₁}
  {h₂ : curve.Nonsingular x₂ y₂}

/-- The first coordinates differ by this, over the common denominator. -/
theorem sub_x (hp : p.StandsFor (.some x₁ y₁ h₁)) (hq : q.StandsFor (.some x₂ y₂ h₂)) :
    toZMod (q.x * (p.z * p.z) - p.x * (q.z * q.z)) =
      (x₂ - x₁) * (toZMod p.z * toZMod q.z) ^ 2 := by
  obtain ⟨_, hx₁, _⟩ := hp
  obtain ⟨_, hx₂, _⟩ := hq
  simp only [toZMod_sub, toZMod_mul, hx₁, hx₂]
  ring

/-- The second coordinates differ by this, over the common denominator. -/
theorem sub_y (hp : p.StandsFor (.some x₁ y₁ h₁)) (hq : q.StandsFor (.some x₂ y₂ h₂)) :
    toZMod (q.y * (p.z * p.z * p.z) - p.y * (q.z * q.z * q.z)) =
      (y₂ - y₁) * (toZMod p.z * toZMod q.z) ^ 3 := by
  obtain ⟨_, _, hy₁⟩ := hp
  obtain ⟨_, _, hy₂⟩ := hq
  simp only [toZMod_sub, toZMod_mul, hy₁, hy₂]
  ring

/-- The sum of two points that share their first coordinate: they are equal, or each
    other's negatives. -/
theorem add_of_x_eq (hp : p.StandsFor (.some x₁ y₁ h₁)) (hq : q.StandsFor (.some x₂ y₂ h₂))
    (hx : x₁ = x₂) : (p.add q).StandsFor (.some x₁ y₁ h₁ + .some x₂ y₂ h₂) := by
  have hh := sub_x hp hq
  have hr := sub_y hp hq
  have hz := mul_ne_zero hp.1 hq.1
  rw [hx, sub_self, zero_mul, toZMod_eq_zero] at hh
  rw [Jacobian.add, if_neg fun h => hp.1 (toZMod_eq_zero.2 h),
    if_neg fun h => hq.1 (toZMod_eq_zero.2 h)]
  dsimp only
  rw [if_pos hh]
  by_cases hy : y₁ = y₂
  · rw [hy, sub_self, zero_mul, toZMod_eq_zero] at hr
    rw [if_pos hr]
    subst hx hy
    exact hp.double
  · have hr0 : q.y * (p.z * p.z * p.z) - p.y * (q.z * q.z * q.z) ≠ 0 := by
      rw [Ne, ← toZMod_eq_zero, hr]
      exact mul_ne_zero (sub_ne_zero.2 (Ne.symm hy)) (pow_ne_zero 3 hz)
    rw [if_neg hr0, Point.add_of_Y_eq hx ((Y_eq_of_X_eq h₁.1 h₂.1 hx).resolve_left hy)]
    exact infinity

/-- The sum of two points that do not share their first coordinate. -/
theorem add_of_x_ne (hp : p.StandsFor (.some x₁ y₁ h₁)) (hq : q.StandsFor (.some x₂ y₂ h₂))
    (hx : x₁ ≠ x₂) : (p.add q).StandsFor (.some x₁ y₁ h₁ + .some x₂ y₂ h₂) := by
  have hh := sub_x hp hq
  have hr := sub_y hp hq
  obtain ⟨hz₁, hx₁, hy₁⟩ := hp
  obtain ⟨hz₂, hx₂, hy₂⟩ := hq
  have hz := mul_ne_zero hz₁ hz₂
  have hh0 : q.x * (p.z * p.z) - p.x * (q.z * q.z) ≠ 0 := by
    rw [Ne, ← toZMod_eq_zero, hh]
    exact mul_ne_zero (sub_ne_zero.2 (Ne.symm hx)) (pow_ne_zero 2 hz)
  have hslope : curve.slope x₁ x₂ y₁ y₂ * (x₁ - x₂) = y₁ - y₂ := by
    rw [slope_of_X_ne hx, div_mul_cancel₀ _ (sub_ne_zero.2 hx)]
  rw [Jacobian.add, if_neg fun h => hz₁ (toZMod_eq_zero.2 h),
    if_neg fun h => hz₂ (toZMod_eq_zero.2 h)]
  dsimp only
  rw [if_neg hh0, Point.add_of_X_ne hx, StandsFor]
  generalize curve.slope x₁ x₂ y₁ y₂ = l at hslope
  -- The numerator of the slope in coordinates.
  have hnum : toZMod (q.y * (p.z * p.z * p.z) - p.y * (q.z * q.z * q.z)) =
      l * (x₂ - x₁) * (toZMod p.z * toZMod q.z) ^ 3 := by
    rw [hr]
    linear_combination (toZMod p.z * toZMod q.z) ^ 3 * hslope
  generalize q.y * (p.z * p.z * p.z) - p.y * (q.z * q.z * q.z) = r at hnum
  generalize q.x * (p.z * p.z) - p.x * (q.z * q.z) = h at hh
  simp only [toZMod_sub, toZMod_mul, toZMod_literal, hh, hnum, hx₁, hy₁, addX, addY, negAddY,
    negY, curve]
  refine ⟨mul_ne_zero (mul_ne_zero (sub_ne_zero.2 (Ne.symm hx)) (pow_ne_zero 2 hz)) hz, ?_, ?_⟩
  · ring
  · ring

end Sum

/-- The sum of coordinates stands for the sum of the points. -/
theorem add (hp : p.StandsFor P) (hq : q.StandsFor Q) : (p.add q).StandsFor (P + Q) := by
  rcases P with _ | ⟨x₁, y₁, h₁⟩
  · have hz : p.z = 0 := toZMod_eq_zero.1 hp
    rw [Jacobian.add, if_pos hz]
    exact hq
  rcases Q with _ | ⟨x₂, y₂, h₂⟩
  · have hz : q.z = 0 := toZMod_eq_zero.1 hq
    rw [Jacobian.add, if_neg fun h => hp.1 (toZMod_eq_zero.2 h), if_pos hz]
    exact hp
  by_cases hx : x₁ = x₂
  · exact hp.add_of_x_eq hq hx
  · exact hp.add_of_x_ne hq hx

end Jacobian.StandsFor

/-! ## The point that coordinates stand for -/

namespace Point

theorem equation_of_isOnCurve {x y : Field} (h : (affine x y).isOnCurve = true) :
    curve.Equation (toZMod x) (toZMod y) :=
  curve_equation_iff.2 (isOnCurve_affine.1 h)

/-- The point of the elliptic curve that a point on the curve is. -/
def value : Point → curve.Point
  | infinity => 0
  | affine x y =>
    if h : (affine x y).isOnCurve = true then
      .some _ _ (nonsingular_of_equation (equation_of_isOnCurve h))
    else
      0

variable {p q : Point}

/-- The coordinates of a point on the curve stand for it. -/
theorem standsFor_value (hp : p.isOnCurve = true) : p.toJacobian.StandsFor p.value := by
  rcases p with _ | ⟨x, y⟩
  · exact Jacobian.StandsFor.infinity
  · rw [value, dif_pos hp, toJacobian, Jacobian.StandsFor, toZMod_one]
    exact ⟨one_ne_zero, by ring, by ring⟩

/-- A point on the curve is told by its value. -/
theorem value_injective (hp : p.isOnCurve = true) (hq : q.isOnCurve = true)
    (h : p.value = q.value) : p = q := by
  rcases p with _ | ⟨x, y⟩ <;> rcases q with _ | ⟨x', y'⟩
  · rfl
  · rw [value, value, dif_pos hq] at h
    cases h
  · rw [value, value, dif_pos hp] at h
    cases h
  · rw [value, value, dif_pos hp, dif_pos hq, WeierstrassCurve.Affine.Point.some.injEq,
      toZMod_inj, toZMod_inj] at h
    rw [h.1, h.2]

end Point

namespace Jacobian

variable {p q : Jacobian}

/-- Coordinates on the curve stand for the affine point that they are taken to. -/
theorem standsFor_toPoint (hp : p.OnCurve) : p.StandsFor p.toPoint.value := by
  have hcurve := hp.toPoint
  rw [toPoint] at hcurve ⊢
  split at hcurve
  · rename_i hz
    rw [if_pos hz]
    exact toZMod_eq_zero.2 hz
  · rename_i hz
    have hne : toZMod p.z ≠ 0 := toZMod_eq_zero.not.2 hz
    rw [if_neg hz, Point.value, dif_pos hcurve]
    simp only [StandsFor, toZMod_mul, toZMod_inv]
    refine ⟨hne, ?_, ?_⟩ <;> field_simp

/-- What coordinates on the curve stand for. -/
theorem StandsFor.value_toPoint {P : curve.Point} (hp : p.OnCurve) (h : p.StandsFor P) :
    p.toPoint.value = P :=
  (standsFor_toPoint hp).unique h

/-- The multiple of coordinates on the curve stands for the multiple. -/
theorem value_smul (hp : p.OnCurve) (n : ℕ) : (p.smul n).toPoint.value = n • p.toPoint.value := by
  have hadd : ∀ p q : Jacobian, p.OnCurve → q.OnCurve → (p.add q).OnCurve ∧
      Multiplicative.ofAdd (p.add q).toPoint.value =
        Multiplicative.ofAdd p.toPoint.value * Multiplicative.ofAdd q.toPoint.value :=
    fun p q hp hq => ⟨hp.add hq, congrArg _
      (((standsFor_toPoint hp).add (standsFor_toPoint hq)).value_toPoint (hp.add hq))⟩
  have hdouble : ∀ p : Jacobian, p.OnCurve → p.double.OnCurve ∧
      Multiplicative.ofAdd p.double.toPoint.value =
        Multiplicative.ofAdd p.toPoint.value * Multiplicative.ofAdd p.toPoint.value :=
    fun p hp => ⟨hp.double, congrArg _ ((standsFor_toPoint hp).double.value_toPoint hp.double)⟩
  exact map_power (f := fun p : Jacobian => Multiplicative.ofAdd p.toPoint.value)
    ⟨OnCurve.infinity, rfl⟩ hadd hdouble hp n

end Jacobian

namespace Point

variable {p q : Point}

theorem value_toJacobian (hp : p.isOnCurve = true) : p.toJacobian.toPoint.value = p.value :=
  (standsFor_value hp).value_toPoint (onCurve_toJacobian hp)

/-- The sum of points on the curve is the sum in the elliptic curve. -/
theorem value_add (hp : p.isOnCurve = true) (hq : q.isOnCurve = true) :
    (p.add q).value = p.value + q.value :=
  ((standsFor_value hp).add (standsFor_value hq)).value_toPoint
    ((onCurve_toJacobian hp).add (onCurve_toJacobian hq))

/-- The multiples of a point on the curve are those in the elliptic curve. -/
theorem value_smul (hp : p.isOnCurve = true) (n : ℕ) : (p.smul n).value = n • p.value := by
  rw [smul, Jacobian.value_smul (onCurve_toJacobian hp), value_toJacobian hp]

end Point

end P256

end PrivateMatching
