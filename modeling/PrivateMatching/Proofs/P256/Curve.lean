import Mathlib.Tactic.LinearCombination
import Mathlib.Tactic.FieldSimp
import PrivateMatching.Proofs.P256.Primes

/-!
# Points stay on the curve

The coordinates of points are read modulo the prime, where the curve in Jacobian
coordinates is `y ^ 2 = x ^ 3 - 3 * x * z ^ 4 + b * z ^ 6` (`Jacobian.OnCurve`).
Doubling and adding keep to it, whichever case they take, so multiples do
(`Jacobian.OnCurve.smul`), and so do the points that the coordinates stand for
(`Jacobian.OnCurve.toPoint`). The same holds of points in homogeneous coordinates
(`Homogeneous.OnCurve.toPoint`).
-/

namespace PrivateMatching

namespace P256

open PrivateMatching.Modular

/-- The constant of the curve modulo the prime. -/
def constB : ZMod fieldPrime := toZMod curveB

/-- The coordinates satisfy the equation of the curve. -/
def Jacobian.OnCurve (p : Jacobian) : Prop :=
  toZMod p.y ^ 2 =
    toZMod p.x ^ 3 - 3 * toZMod p.x * toZMod p.z ^ 4 + constB * toZMod p.z ^ 6

/-- The right-hand side of the equation of the curve. -/
def rightSide (x : ZMod fieldPrime) : ZMod fieldPrime := x ^ 3 - 3 * x + constB

theorem toZMod_curveValue (x : Field) :
    toZMod (curveValue x) = toZMod x ^ 3 - 3 * toZMod x + constB := by
  simp only [curveValue, constB, toZMod_add, toZMod_sub, toZMod_mul, toZMod_literal]
  ring

/-- An affine point is on the curve if its coordinates satisfy the equation modulo
    the prime. -/
theorem Point.isOnCurve_affine {x y : Field} : (Point.affine x y).isOnCurve = true ↔
    toZMod y ^ 2 = toZMod x ^ 3 - 3 * toZMod x + constB := by
  rw [isOnCurve, beq_iff_eq, ← toZMod_inj, toZMod_mul, toZMod_curveValue, sq]

namespace Jacobian.OnCurve

variable {p q : Jacobian}

theorem infinity : Jacobian.infinity.OnCurve := by
  simp only [Jacobian.OnCurve, Jacobian.infinity, toZMod_one, toZMod_zero]
  ring

theorem double (hp : p.OnCurve) : p.double.OnCurve := by
  simp only [Jacobian.OnCurve, Jacobian.double, toZMod_add, toZMod_sub, toZMod_mul,
    toZMod_literal] at *
  linear_combination (64 * toZMod p.y ^ 6) * hp

/-- The sum of two points whose first coordinates differ. -/
theorem chord {x₁ y₁ z₁ x₂ y₂ z₂ u s h r x : ZMod fieldPrime}
    (hp : y₁ ^ 2 = x₁ ^ 3 - 3 * x₁ * z₁ ^ 4 + constB * z₁ ^ 6)
    (hq : y₂ ^ 2 = x₂ ^ 3 - 3 * x₂ * z₂ ^ 4 + constB * z₂ ^ 6)
    (hu : u = x₁ * z₂ ^ 2) (hs : s = y₁ * z₂ ^ 3) (hh : u + h = x₂ * z₁ ^ 2)
    (hr : s + r = y₂ * z₁ ^ 3) (hx : x = r ^ 2 - h ^ 3 - 2 * u * h ^ 2) :
    (r * (u * h ^ 2 - x) - s * h ^ 3) ^ 2 =
      x ^ 3 - 3 * x * (h * z₁ * z₂) ^ 4 + constB * (h * z₁ * z₂) ^ 6 := by
  -- Both points in coordinates with the common denominator `z₁ * z₂`.
  have hp' : s ^ 2 = u ^ 3 - 3 * u * (z₁ * z₂) ^ 4 + constB * (z₁ * z₂) ^ 6 := by
    rw [hs, hu]
    linear_combination z₂ ^ 6 * hp
  have hq' : (s + r) ^ 2 =
      (u + h) ^ 3 - 3 * (u + h) * (z₁ * z₂) ^ 4 + constB * (z₁ * z₂) ^ 6 := by
    rw [hr, hh]
    linear_combination z₁ ^ 6 * hq
  rw [hx]
  linear_combination (h ^ 6 - h ^ 3 * (r ^ 2 - h ^ 3 - 3 * u * h ^ 2)) * hp' +
    h ^ 3 * (r ^ 2 - h ^ 3 - 3 * u * h ^ 2) * hq'

theorem add (hp : p.OnCurve) (hq : q.OnCurve) : (p.add q).OnCurve := by
  unfold Jacobian.add
  split
  · exact hq
  split
  · exact hp
  dsimp only
  split
  · split
    · exact hp.double
    · exact infinity
  · simp only [Jacobian.OnCurve, toZMod_sub, toZMod_mul, toZMod_literal] at *
    have hchord := chord hp hq rfl rfl (add_sub_cancel _ _) (add_sub_cancel _ _) rfl
    linear_combination hchord

theorem smul (hp : p.OnCurve) (n : ℕ) : (p.smul n).OnCurve :=
  power_induction infinity (fun _ _ => add) (fun _ => double) hp n

/-- Coordinates on the curve stand for a point on the curve. -/
theorem toPoint (hp : p.OnCurve) : p.toPoint.isOnCurve = true := by
  unfold Jacobian.toPoint
  split
  · rfl
  · rename_i hz
    have hne : toZMod p.z ≠ 0 := fun h => hz (toZMod_eq_zero.1 h)
    rw [Jacobian.OnCurve] at hp
    simp only [Point.isOnCurve_affine, toZMod_mul, toZMod_inv]
    field_simp
    linear_combination hp

end Jacobian.OnCurve

namespace Point

variable {p q : Point}

theorem onCurve_toJacobian (hp : p.isOnCurve = true) : p.toJacobian.OnCurve := by
  rcases p with _ | ⟨x, y⟩
  · exact Jacobian.OnCurve.infinity
  · rw [isOnCurve_affine] at hp
    simp only [toJacobian, Jacobian.OnCurve, toZMod_one]
    linear_combination hp

/-- The sum of points on the curve is on the curve. -/
theorem isOnCurve_add (hp : p.isOnCurve = true) (hq : q.isOnCurve = true) :
    (p.add q).isOnCurve = true :=
  ((onCurve_toJacobian hp).add (onCurve_toJacobian hq)).toPoint

/-- The multiples of a point on the curve are on the curve. -/
theorem isOnCurve_smul (hp : p.isOnCurve = true) (n : ℕ) : (p.smul n).isOnCurve = true :=
  ((onCurve_toJacobian hp).smul n).toPoint

theorem isOnCurve_generator : generator.isOnCurve = true := by decide +kernel

end Point

/-! ## Points in other coordinates -/

namespace Jacobian

/-- The affine point is what the coordinates stand for. -/
theorem toPoint_eq {p : Jacobian} (hz : p.z ≠ 0) :
    ∃ x y, p.toPoint = .affine x y ∧ toZMod x * toZMod p.z ^ 2 = toZMod p.x ∧
      toZMod y * toZMod p.z ^ 3 = toZMod p.y := by
  have hne : toZMod p.z ≠ 0 := toZMod_eq_zero.not.2 hz
  refine ⟨_, _, by rw [toPoint, if_neg hz], ?_, ?_⟩ <;>
  · simp only [toZMod_mul, toZMod_inv]
    field_simp

end Jacobian

/-- A point in homogeneous coordinates. -/
structure Homogeneous where
  /-- The first coordinate, to be divided by `z`. -/
  x : Field
  /-- The second coordinate, to be divided by `z`. -/
  y : Field
  /-- The denominator; zero at infinity. -/
  z : Field

namespace Homogeneous

/-- The coordinates satisfy the equation of the curve. -/
def OnCurve (p : Homogeneous) : Prop :=
  toZMod p.y ^ 2 * toZMod p.z =
    toZMod p.x ^ 3 - 3 * toZMod p.x * toZMod p.z ^ 2 + constB * toZMod p.z ^ 3

/-- The affine point that the coordinates stand for. -/
def toPoint (p : Homogeneous) : Point :=
  if p.z = 0 then .infinity
  else .affine (p.x * Modular.inv p.z) (p.y * Modular.inv p.z)

variable {p : Homogeneous}

/-- The affine point is what the coordinates stand for. -/
theorem toPoint_eq (hz : p.z ≠ 0) :
    ∃ x y, p.toPoint = .affine x y ∧ toZMod x * toZMod p.z = toZMod p.x ∧
      toZMod y * toZMod p.z = toZMod p.y := by
  have hne : toZMod p.z ≠ 0 := toZMod_eq_zero.not.2 hz
  refine ⟨_, _, by rw [toPoint, if_neg hz], ?_, ?_⟩ <;>
  · simp only [toZMod_mul, toZMod_inv]
    field_simp

/-- Whatever the denominator, the coordinates of a point on the curve are on it. -/
theorem OnCurve.scale {x y : Field} (h : (Point.affine x y).isOnCurve = true) (c : Field) :
    OnCurve ⟨c * x, c * y, c⟩ := by
  have hcurve := Point.isOnCurve_affine.1 h
  simp only [OnCurve, toZMod_mul]
  linear_combination toZMod c ^ 3 * hcurve

/-- Coordinates on the curve stand for a point on the curve. -/
theorem OnCurve.toPoint (hp : p.OnCurve) (hz : p.z ≠ 0) : p.toPoint.isOnCurve = true := by
  obtain ⟨x, y, hpoint, hx, hy⟩ := toPoint_eq hz
  have hne : toZMod p.z ≠ 0 := toZMod_eq_zero.not.2 hz
  rw [hpoint, Point.isOnCurve_affine]
  rw [OnCurve, ← hx, ← hy] at hp
  -- The equation is that of the affine point, times the cube of the denominator.
  refine mul_right_cancel₀ (pow_ne_zero 3 hne) ?_
  linear_combination hp

end Homogeneous

end P256

end PrivateMatching
