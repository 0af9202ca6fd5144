import PrivateMatching.Proofs.Ristretto.Order
import PrivateMatching.Proofs.Ristretto.SquareRoot

/-!
# Classes of four points

Two points are in one class if they have the same quadruple, that is, if they
differ by a point with a coordinate that is zero
(`Edwards.four_nsmul_eq_iff`). A class without such points has one
representative whose first coordinate and whose product of coordinates are not
negative (`Edwards.Normal.unique`).
-/

namespace PrivateMatching

namespace Ristretto

open PrivateMatching.Modular

/-- The least representative is even. -/
def IsNonnegative (a : ZMod fieldPrime) : Prop := a.val % 2 = 0

theorem isNonnegative_toZMod {a : Field} :
    IsNonnegative (toZMod a) ↔ Field.isNegative a = false := by
  rw [IsNonnegative, val_toZMod, Field.isNegative, beq_eq_false_iff_ne]
  omega

/-- Of an element and its negative, one is not negative. -/
theorem isNonnegative_neg {a : ZMod fieldPrime} (ha : a ≠ 0) :
    IsNonnegative (-a) ↔ ¬IsNonnegative a := by
  obtain ⟨a, rfl⟩ := toZMod_surjective a
  rw [← toZMod_neg, isNonnegative_toZMod, isNonnegative_toZMod,
    Field.isNegative_neg (toZMod_eq_zero.not.1 ha)]
  cases Field.isNegative a <;> decide

namespace Edwards

variable {P Q : Edwards}

/-- Points have the same quadruple if and only if they differ by one with a
    coordinate that is zero. -/
theorem four_nsmul_eq_iff :
    4 • P = 4 • Q ↔ P.x * Q.y = P.y * Q.x ∨ P.y * Q.y = P.x * Q.x := by
  rw [← sub_eq_zero, ← nsmul_sub, sub_eq_add_neg, four_nsmul_eq_zero_iff, mul_eq_zero,
    add_x_eq_zero_iff, add_y_eq_zero_iff, neg_x, neg_y, mul_neg, mul_neg, ← sub_eq_add_neg,
    ← sub_eq_add_neg, sub_eq_zero, sub_eq_zero]

/-- The point across, of the same class. -/
def halfTurn (P : Edwards) : Edwards where
  x := -P.x
  y := -P.y
  equation := by
    rw [neg_sq, neg_sq]
    exact P.equation

/-- A point of the same class whose coordinates have the negative product. -/
def quarterTurn (P : Edwards) : Edwards where
  x := rootMinusOne * P.y
  y := rootMinusOne * P.x
  equation := by
    have hi := rootMinusOne_sq
    linear_combination P.equation +
      (P.x ^ 2 - P.y ^ 2 - constD * (rootMinusOne ^ 2 - 1) * P.x ^ 2 * P.y ^ 2) * hi

/-- A quarter turn takes the product of the coordinates to its negative. -/
theorem quarterTurn_mul (P : Edwards) : P.quarterTurn.x * P.quarterTurn.y = -(P.x * P.y) := by
  have hi := rootMinusOne_sq
  simp only [quarterTurn]
  linear_combination P.x * P.y * hi

theorem four_nsmul_halfTurn (P : Edwards) : 4 • P.halfTurn = 4 • P :=
  four_nsmul_eq_iff.2 (.inl (by simp only [halfTurn]; ring))

theorem four_nsmul_quarterTurn (P : Edwards) : 4 • P.quarterTurn = 4 • P :=
  four_nsmul_eq_iff.2 (.inr (by simp only [quarterTurn]; ring))

/-! ## Representatives -/

/-- The first coordinate and the product of the coordinates are not negative, and
    the product is not zero. -/
structure Normal (P : Edwards) : Prop where
  x_nonneg : IsNonnegative P.x
  mul_nonneg : IsNonnegative (P.x * P.y)
  mul_ne_zero : P.x * P.y ≠ 0

theorem Normal.x_ne_zero (hP : P.Normal) : P.x ≠ 0 := left_ne_zero_of_mul hP.mul_ne_zero

theorem Normal.y_ne_zero (hP : P.Normal) : P.y ≠ 0 := right_ne_zero_of_mul hP.mul_ne_zero

theorem add_of_x_eq_zero (h : P.x = 0) : (P + Q).x = P.y * Q.x ∧ (P + Q).y = P.y * Q.y := by
  have hx := add_x P Q
  have hy := add_y P Q
  simp only [cross, h, mul_zero, zero_mul, add_zero, zero_add, sub_zero, mul_one] at hx hy
  exact ⟨hx, hy⟩

theorem add_of_y_eq_zero (h : P.y = 0) : (P + Q).x = P.x * Q.y ∧ (P + Q).y = P.x * Q.x := by
  have hx := add_x P Q
  have hy := add_y P Q
  simp only [cross, h, mul_zero, zero_mul, add_zero, zero_add, sub_zero, mul_one] at hx hy
  exact ⟨hx, hy⟩

/-- A class has one normal representative. -/
theorem Normal.unique (hP : P.Normal) (hQ : Q.Normal) (h : 4 • P = 4 • Q) : P = Q := by
  have hdiff : 4 • (P - Q) = 0 := by rw [nsmul_sub, h, sub_self]
  have hsum : P - Q + Q = P := sub_add_cancel P Q
  rcases mul_eq_zero.1 (four_nsmul_eq_zero_iff.1 hdiff) with hx | hy
  · obtain ⟨hPx, hPy⟩ := add_of_x_eq_zero (Q := Q) hx
    have hsq := sq_y_of_x_eq_zero hx
    rw [hsum] at hPx hPy
    rw [sq, mul_self_eq_one_iff] at hsq
    rcases hsq with hone | hone
    · ext
      · rw [hPx, hone, one_mul]
      · rw [hPy, hone, one_mul]
    · -- The first coordinates are each other's negatives.
      have hneg : IsNonnegative (-Q.x) := by
        rw [← neg_one_mul, ← hone, ← hPx]
        exact hP.x_nonneg
      exact absurd hQ.x_nonneg ((isNonnegative_neg hQ.x_ne_zero).1 hneg)
  · obtain ⟨hPx, hPy⟩ := add_of_y_eq_zero (Q := Q) hy
    have hsq := (P - Q).equation
    rw [hsum] at hPx hPy
    rw [hy] at hsq
    -- The products are each other's negatives.
    have hmul : P.x * P.y = -(Q.x * Q.y) := by
      rw [hPx, hPy]
      linear_combination (-Q.x * Q.y) * hsq
    have hneg : IsNonnegative (-(Q.x * Q.y)) := hmul ▸ hP.mul_nonneg
    exact absurd hQ.mul_nonneg ((isNonnegative_neg hQ.mul_ne_zero).1 hneg)

/-- Every class without a coordinate that is zero has a normal representative: of a
    point whose product is not negative, it is the point or the one across. -/
theorem exists_normal (hmul : IsNonnegative (P.x * P.y)) (hne : P.x * P.y ≠ 0) :
    (IsNonnegative P.x → P.Normal) ∧ (¬IsNonnegative P.x → P.halfTurn.Normal) := by
  constructor
  · intro hx
    exact ⟨hx, hmul, hne⟩
  · intro hx
    have hturn : P.halfTurn.x * P.halfTurn.y = P.x * P.y := neg_mul_neg _ _
    exact ⟨(isNonnegative_neg (left_ne_zero_of_mul hne)).2 hx, hturn ▸ hmul, hturn ▸ hne⟩

end Edwards

end Ristretto

end PrivateMatching
