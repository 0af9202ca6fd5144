import Mathlib.Tactic.FieldSimp
import Mathlib.Tactic.LinearCombination
import PrivateMatching.Proofs.Ristretto.Primes
import PrivateMatching.Proofs.Squares

/-!
# The Edwards curve behind ristretto255

The points of `-x ^ 2 + y ^ 2 = 1 + d * x ^ 2 * y ^ 2` modulo the prime. As `-1`
is a square and `d` is not, no denominator of the addition vanishes
(`Edwards.denominators_ne_zero`), so there is one rule for all sums, and the
points are a commutative group under it. That it is associative is an identity
of polynomials modulo the equations of three points (`assoc_x`, `assoc_y`).
-/

namespace PrivateMatching

namespace Ristretto

open PrivateMatching.Modular

/-- The constant of the curve modulo the prime. -/
def constD : ZMod fieldPrime := toZMod curveD

/-- A root of `-1` modulo the prime. -/
def rootMinusOne : ZMod fieldPrime := toZMod Field.sqrtMinusOne

theorem rootMinusOne_sq : rootMinusOne ^ 2 = -1 := by
  have h : Field.sqrtMinusOne * Field.sqrtMinusOne = -1 := by decide +kernel
  rw [rootMinusOne, sq, ← toZMod_mul, h, toZMod_neg, toZMod_one]

theorem not_isSquare_constD : ¬IsSquare constD := by
  rw [constD, isSquare_iff (by decide)]
  decide +kernel

/-! ## Polynomial identities -/

section Identities

variable {R : Type*} [CommRing R] {d x₁ y₁ x₂ y₂ x₃ y₃ : R}

/-- Sums are on the curve. -/
theorem sum_equation (h₁ : y₁ ^ 2 - x₁ ^ 2 = 1 + d * x₁ ^ 2 * y₁ ^ 2)
    (h₂ : y₂ ^ 2 - x₂ ^ 2 = 1 + d * x₂ ^ 2 * y₂ ^ 2) {e : R} (he : e = d * x₁ * x₂ * y₁ * y₂) :
    ((y₁ * y₂ + x₁ * x₂) * (1 + e)) ^ 2 - ((x₁ * y₂ + y₁ * x₂) * (1 - e)) ^ 2 =
      ((1 + e) * (1 - e)) ^ 2 + d * (x₁ * y₂ + y₁ * x₂) ^ 2 * (y₁ * y₂ + x₁ * x₂) ^ 2 := by
  subst he
  linear_combination
    ((y₂ ^ 2 - x₂ ^ 2) * (1 + (d * x₁ * x₂ * y₁ * y₂) ^ 2) -
        d * x₂ ^ 2 * y₂ ^ 2 * (y₁ ^ 2 - x₁ ^ 2 + 1 + d * x₁ ^ 2 * y₁ ^ 2)) * h₁ +
      ((1 + d * x₁ ^ 2 * y₁ ^ 2) * (1 + (d * x₁ * x₂ * y₁ * y₂) ^ 2) -
        d * x₁ ^ 2 * y₁ ^ 2 * (y₂ ^ 2 - x₂ ^ 2 + 1 + d * x₂ ^ 2 * y₂ ^ 2)) * h₂

/-- The first coordinates of the two sums of three points, each multiplied by the
    denominators of the other. -/
theorem assoc_x (h₁ : y₁ ^ 2 - x₁ ^ 2 = 1 + d * x₁ ^ 2 * y₁ ^ 2)
    (h₂ : y₂ ^ 2 - x₂ ^ 2 = 1 + d * x₂ ^ 2 * y₂ ^ 2)
    (h₃ : y₃ ^ 2 - x₃ ^ 2 = 1 + d * x₃ ^ 2 * y₃ ^ 2) {e e' : R}
    (he : e = d * x₁ * x₂ * y₁ * y₂) (he' : e' = d * x₂ * x₃ * y₂ * y₃) :
    ((x₁ * y₂ + y₁ * x₂) * y₃ * (1 - e) + (y₁ * y₂ + x₁ * x₂) * x₃ * (1 + e)) *
        ((1 + e') * (1 - e') + d * (x₂ * y₃ + y₂ * x₃) * (y₂ * y₃ + x₂ * x₃) * x₁ * y₁) =
      ((x₂ * y₃ + y₂ * x₃) * y₁ * (1 - e') + (y₂ * y₃ + x₂ * x₃) * x₁ * (1 + e')) *
        ((1 + e) * (1 - e) + d * (x₁ * y₂ + y₁ * x₂) * (y₁ * y₂ + x₁ * x₂) * x₃ * y₃) := by
  subst he he'
  linear_combination
    d * x₂ * y₂ * x₃ * y₃ *
          (x₁ * (y₂ * y₃ + x₂ * x₃) * (1 + d * x₂ * x₃ * y₂ * y₃) -
            y₁ * (x₂ * y₃ + y₂ * x₃) * (1 - d * x₂ * x₃ * y₂ * y₃)) * h₁ +
        d ^ 2 * x₁ * y₁ * x₂ * y₂ * x₃ * y₃ *
          (x₁ * y₁ * (y₁ * (x₂ * y₃ + y₂ * x₃) - x₁ * (y₂ * y₃ + x₂ * x₃)) +
            x₃ * y₃ * (x₃ * (y₁ * y₂ + x₁ * x₂) - y₃ * (x₁ * y₂ + y₁ * x₂))) * h₂ -
      d * x₁ * y₁ * x₂ * y₂ *
          ((y₁ * y₂ + x₁ * x₂) * x₃ * (1 + d * x₁ * x₂ * y₁ * y₂) -
            (x₁ * y₂ + y₁ * x₂) * y₃ * (1 - d * x₁ * x₂ * y₁ * y₂)) * h₃

/-- The same of the second coordinates. -/
theorem assoc_y (h₁ : y₁ ^ 2 - x₁ ^ 2 = 1 + d * x₁ ^ 2 * y₁ ^ 2)
    (h₂ : y₂ ^ 2 - x₂ ^ 2 = 1 + d * x₂ ^ 2 * y₂ ^ 2)
    (h₃ : y₃ ^ 2 - x₃ ^ 2 = 1 + d * x₃ ^ 2 * y₃ ^ 2) {e e' : R}
    (he : e = d * x₁ * x₂ * y₁ * y₂) (he' : e' = d * x₂ * x₃ * y₂ * y₃) :
    ((y₁ * y₂ + x₁ * x₂) * y₃ * (1 + e) + (x₁ * y₂ + y₁ * x₂) * x₃ * (1 - e)) *
        ((1 + e') * (1 - e') - d * (x₂ * y₃ + y₂ * x₃) * (y₂ * y₃ + x₂ * x₃) * x₁ * y₁) =
      ((y₂ * y₃ + x₂ * x₃) * y₁ * (1 + e') + (x₂ * y₃ + y₂ * x₃) * x₁ * (1 - e')) *
        ((1 + e) * (1 - e) - d * (x₁ * y₂ + y₁ * x₂) * (y₁ * y₂ + x₁ * x₂) * x₃ * y₃) := by
  subst he he'
  linear_combination
    d * x₂ * y₂ * x₃ * y₃ *
          (y₁ * (y₂ * y₃ + x₂ * x₃) * (1 + d * x₂ * x₃ * y₂ * y₃) -
            x₁ * (x₂ * y₃ + y₂ * x₃) * (1 - d * x₂ * x₃ * y₂ * y₃)) * h₁ +
        d ^ 2 * x₁ * y₁ * x₂ * y₂ * x₃ * y₃ *
          (x₁ * y₁ * (x₁ * (x₂ * y₃ + y₂ * x₃) - y₁ * (y₂ * y₃ + x₂ * x₃)) +
            x₃ * y₃ * (y₃ * (y₁ * y₂ + x₁ * x₂) - x₃ * (x₁ * y₂ + y₁ * x₂))) * h₂ -
      d * x₁ * y₁ * x₂ * y₂ *
          ((y₁ * y₂ + x₁ * x₂) * y₃ * (1 + d * x₁ * x₂ * y₁ * y₂) -
            (x₁ * y₂ + y₁ * x₂) * x₃ * (1 - d * x₁ * x₂ * y₁ * y₂)) * h₃

end Identities

/-! ## The group -/

/-- A point of the Edwards curve. -/
@[ext] structure Edwards where
  /-- The first coordinate. -/
  x : ZMod fieldPrime
  /-- The second coordinate. -/
  y : ZMod fieldPrime
  equation : y ^ 2 - x ^ 2 = 1 + constD * x ^ 2 * y ^ 2

namespace Edwards

/-- What the denominators of a sum differ from one by. -/
def cross (P Q : Edwards) : ZMod fieldPrime := constD * P.x * Q.x * P.y * Q.y

variable {P Q : Edwards}

/-- If a denominator vanishes, then so does a factor for each root of `-1`, as
    otherwise the constant of the curve is a square. -/
theorem factor_eq_zero (h : cross P Q ^ 2 = 1) {i : ZMod fieldPrime} (hi : i ^ 2 = -1) :
    P.x * P.y * (i * Q.x + Q.y) = 0 := by
  by_contra hne
  -- The quotient is a root of the constant.
  refine not_isSquare_constD ⟨(P.y + i * cross P Q * P.x) / (P.x * P.y * (i * Q.x + Q.y)), ?_⟩
  rw [div_mul_div_comm, eq_div_iff (mul_ne_zero hne hne)]
  have hP := P.equation
  have hQ := Q.equation
  simp only [cross] at h ⊢
  linear_combination
    (constD * P.x ^ 2 * P.y ^ 2 * Q.x ^ 2 -
          (constD * P.x * Q.x * P.y * Q.y) ^ 2 * P.x ^ 2) * hi +
        constD * P.x ^ 2 * P.y ^ 2 * hQ - hP + (1 + P.x ^ 2) * h

/-- No denominator of a sum vanishes. -/
theorem cross_sq_ne_one (P Q : Edwards) : cross P Q ^ 2 ≠ 1 := by
  intro h
  have hne : P.x * P.y * Q.y ≠ 0 := by
    intro hzero
    have : cross P Q = 0 := by
      rw [cross]
      linear_combination constD * Q.x * hzero
    rw [this, zero_pow two_ne_zero] at h
    exact zero_ne_one h
  -- The factors of the two roots of `-1` add up to a factor of the fraction.
  have hplus := factor_eq_zero h rootMinusOne_sq
  have hminus := factor_eq_zero h ((neg_sq _).trans rootMinusOne_sq)
  have hdouble : 2 * (P.x * P.y * Q.y) = 0 := by linear_combination hplus + hminus
  exact hne ((mul_eq_zero.1 hdouble).resolve_left two_ne_zero)

theorem one_add_cross_ne_zero (P Q : Edwards) : 1 + cross P Q ≠ 0 := by
  intro h
  refine cross_sq_ne_one P Q ?_
  linear_combination (cross P Q - 1) * h

theorem one_sub_cross_ne_zero (P Q : Edwards) : 1 - cross P Q ≠ 0 := by
  intro h
  refine cross_sq_ne_one P Q ?_
  linear_combination -(cross P Q + 1) * h

/-- The sum of two points. -/
def add (P Q : Edwards) : Edwards where
  x := (P.x * Q.y + P.y * Q.x) / (1 + cross P Q)
  y := (P.y * Q.y + P.x * Q.x) / (1 - cross P Q)
  equation := by
    have hplus := one_add_cross_ne_zero P Q
    have hminus := one_sub_cross_ne_zero P Q
    have hsum := sum_equation P.equation Q.equation (rfl : cross P Q = _)
    field_simp
    linear_combination hsum

/-- The point with two residues as coordinates. -/
def ofAffine (x y : Field) (h : y * y - x * x = 1 + curveD * (x * x) * (y * y)) : Edwards where
  x := toZMod x
  y := toZMod y
  equation := by
    have hcurve := congrArg toZMod h
    simp only [toZMod_sub, toZMod_mul, toZMod_add, toZMod_one] at hcurve
    rw [constD]
    linear_combination hcurve

instance : Zero Edwards := ⟨⟨0, 1, by ring⟩⟩

instance : Neg Edwards := ⟨fun P => ⟨-P.x, P.y, by rw [neg_sq]; exact P.equation⟩⟩

instance : Add Edwards := ⟨add⟩

@[simp] theorem zero_x : (0 : Edwards).x = 0 := rfl

@[simp] theorem zero_y : (0 : Edwards).y = 1 := rfl

@[simp] theorem neg_x (P : Edwards) : (-P).x = -P.x := rfl

@[simp] theorem neg_y (P : Edwards) : (-P).y = P.y := rfl

@[simp] theorem cross_zero_left (P : Edwards) : cross 0 P = 0 := by
  rw [cross, zero_x, mul_zero, zero_mul, zero_mul, zero_mul]

theorem cross_comm (P Q : Edwards) : cross P Q = cross Q P := by
  rw [cross, cross]
  ring

theorem add_x (P Q : Edwards) : (P + Q).x * (1 + cross P Q) = P.x * Q.y + P.y * Q.x :=
  div_mul_cancel₀ _ (one_add_cross_ne_zero P Q)

theorem add_y (P Q : Edwards) : (P + Q).y * (1 - cross P Q) = P.y * Q.y + P.x * Q.x :=
  div_mul_cancel₀ _ (one_sub_cross_ne_zero P Q)

theorem add_x_eq_zero_iff : (P + Q).x = 0 ↔ P.x * Q.y + P.y * Q.x = 0 := by
  rw [← add_x, mul_eq_zero, or_iff_left (one_add_cross_ne_zero P Q)]

theorem add_y_eq_zero_iff : (P + Q).y = 0 ↔ P.y * Q.y + P.x * Q.x = 0 := by
  rw [← add_y, mul_eq_zero, or_iff_left (one_sub_cross_ne_zero P Q)]

/-- A point with the coordinates of a sum is the sum. -/
theorem eq_add {S : Edwards} (hx : S.x * (1 + cross P Q) = P.x * Q.y + P.y * Q.x)
    (hy : S.y * (1 - cross P Q) = P.y * Q.y + P.x * Q.x) : S = P + Q := by
  ext
  · exact mul_right_cancel₀ (one_add_cross_ne_zero P Q) (hx.trans (add_x P Q).symm)
  · exact mul_right_cancel₀ (one_sub_cross_ne_zero P Q) (hy.trans (add_y P Q).symm)

protected theorem add_comm (P Q : Edwards) : P + Q = Q + P := by
  refine eq_add ?_ ?_
  · rw [cross_comm, add_x]
    ring
  · rw [cross_comm, add_y]
    ring

protected theorem zero_add (P : Edwards) : 0 + P = P := by
  refine (eq_add ?_ ?_).symm <;> simp

protected theorem neg_add_cancel (P : Edwards) : -P + P = 0 := by
  refine (eq_add ?_ ?_).symm
  · simp only [zero_x, neg_x, neg_y]
    ring
  · simp only [zero_y, neg_x, neg_y, cross]
    linear_combination -P.equation

/-- The product of the denominators of a sum of two points. -/
def denominators (P Q : Edwards) : ZMod fieldPrime := (1 + cross P Q) * (1 - cross P Q)

theorem denominators_ne_zero (P Q : Edwards) : denominators P Q ≠ 0 :=
  mul_ne_zero (one_add_cross_ne_zero P Q) (one_sub_cross_ne_zero P Q)

/-- What a third point changes in the denominators, in the coordinates of the
    three. -/
theorem denominators_mul_cross (P Q S : Edwards) :
    denominators P Q * cross (P + Q) S =
      constD * (P.x * Q.y + P.y * Q.x) * (P.y * Q.y + P.x * Q.x) * S.x * S.y := by
  rw [← add_x, ← add_y]
  simp only [denominators, cross]
  ring

theorem add_add_x (P Q S : Edwards) :
    (P + Q + S).x * (denominators P Q * (1 + cross (P + Q) S)) =
      (P.x * Q.y + P.y * Q.x) * S.y * (1 - cross P Q) +
        (P.y * Q.y + P.x * Q.x) * S.x * (1 + cross P Q) := by
  rw [← add_x, ← add_y, denominators]
  linear_combination (1 + cross P Q) * (1 - cross P Q) * add_x (P + Q) S

theorem add_add_y (P Q S : Edwards) :
    (P + Q + S).y * (denominators P Q * (1 - cross (P + Q) S)) =
      (P.y * Q.y + P.x * Q.x) * S.y * (1 + cross P Q) +
        (P.x * Q.y + P.y * Q.x) * S.x * (1 - cross P Q) := by
  rw [← add_x, ← add_y, denominators]
  linear_combination (1 + cross P Q) * (1 - cross P Q) * add_y (P + Q) S

protected theorem add_assoc (P Q S : Edwards) : P + Q + S = P + (Q + S) := by
  rw [Edwards.add_comm P (Q + S)]
  -- Both sides times all denominators are the sides of the polynomial identities.
  ext
  · refine mul_right_cancel₀ (mul_ne_zero
      (mul_ne_zero (denominators_ne_zero P Q) (one_add_cross_ne_zero (P + Q) S))
      (mul_ne_zero (denominators_ne_zero Q S) (one_add_cross_ne_zero (Q + S) P))) ?_
    have h := assoc_x P.equation Q.equation S.equation (rfl : cross P Q = _)
      (rfl : cross Q S = _)
    rw [← denominators, ← denominators, ← denominators_mul_cross, ← denominators_mul_cross,
      ← add_add_x, ← add_add_x] at h
    linear_combination h
  · refine mul_right_cancel₀ (mul_ne_zero
      (mul_ne_zero (denominators_ne_zero P Q) (one_sub_cross_ne_zero (P + Q) S))
      (mul_ne_zero (denominators_ne_zero Q S) (one_sub_cross_ne_zero (Q + S) P))) ?_
    have h := assoc_y P.equation Q.equation S.equation (rfl : cross P Q = _)
      (rfl : cross Q S = _)
    rw [← denominators, ← denominators, ← denominators_mul_cross, ← denominators_mul_cross,
      ← add_add_y, ← add_add_y] at h
    linear_combination h

instance : AddCommGroup Edwards where
  add_assoc := Edwards.add_assoc
  zero_add := Edwards.zero_add
  add_zero P := (Edwards.add_comm P 0).trans (Edwards.zero_add P)
  neg_add_cancel := Edwards.neg_add_cancel
  add_comm := Edwards.add_comm
  nsmul := nsmulRec
  zsmul := zsmulRec

end Edwards

end Ristretto

end PrivateMatching
