import Mathlib.Data.ZMod.QuotientGroup
import Mathlib.GroupTheory.Perm.Cycle.Type
import PrivateMatching.Proofs.Ristretto.Point
import PrivateMatching.Ristretto.OneWayMap

/-!
# The order of the Edwards curve

The points of the Edwards curve are eight times as many as the order of the
generator (`Edwards.natCard`). Half of them are even (`Edwards.even`): the curve
has a point of order eight, which is not. So four times the order takes every
even point to zero (`Edwards.nsmul_eq_zero_of_even`).
-/

namespace PrivateMatching

namespace Ristretto

open PrivateMatching.Modular

namespace Edwards

variable {P Q : Edwards}

/-! ## Torsion -/

theorem sq_y_of_x_eq_zero (h : P.x = 0) : P.y ^ 2 = 1 := by
  have hP := P.equation
  rw [h] at hP
  linear_combination hP

theorem add_self_x_eq_zero_iff : (P + P).x = 0 ↔ P.x * P.y = 0 := by
  rw [add_x_eq_zero_iff, mul_comm P.y, ← two_mul, mul_eq_zero, or_iff_right two_ne_zero]

theorem add_self_eq_zero (h : P.x = 0) : P + P = 0 := by
  have hy := sq_y_of_x_eq_zero h
  refine (eq_add ?_ ?_).symm
  · simp [h]
  · simp [h, cross, ← sq, hy]

/-- The points that four takes to zero have a coordinate that is zero. -/
theorem four_nsmul_eq_zero_iff : 4 • P = 0 ↔ P.x * P.y = 0 := by
  have hfour : 4 • P = (P + P) + (P + P) := by abel
  rw [hfour]
  constructor
  · intro h
    have hx : (P + P).x * (P + P).y = 0 := by rw [← add_self_x_eq_zero_iff, h, zero_x]
    rcases mul_eq_zero.1 hx with hx | hy
    · exact add_self_x_eq_zero_iff.1 hx
    · -- Otherwise the double of the double is `(0, -1)`.
      have hcurve := (P + P).equation
      have hadd := add_y (P + P) (P + P)
      simp only [h, hy, cross, zero_y, mul_zero, sub_zero] at hadd hcurve
      have htwo : (2 : ZMod fieldPrime) = 0 := by linear_combination hadd - hcurve
      exact absurd htwo two_ne_zero
  · intro h
    exact add_self_eq_zero (add_self_x_eq_zero_iff.2 h)

/-! ## Even points -/

theorem one_add_mul_sq_ne_zero (y : ZMod fieldPrime) : 1 + constD * y ^ 2 ≠ 0 := by
  intro h
  have hy : y ≠ 0 := by
    rintro rfl
    rw [zero_pow two_ne_zero, mul_zero, add_zero] at h
    exact one_ne_zero h
  -- Otherwise the constant is a quotient of squares.
  refine not_isSquare_constD ⟨rootMinusOne / y, ?_⟩
  rw [div_mul_div_comm, eq_div_iff (mul_ne_zero hy hy)]
  linear_combination h - rootMinusOne_sq

theorem one_sub_mul_sq_ne_zero (x : ZMod fieldPrime) : 1 - constD * x ^ 2 ≠ 0 := by
  have h := one_add_mul_sq_ne_zero (rootMinusOne * x)
  rwa [mul_pow, rootMinusOne_sq, neg_one_mul, mul_neg, ← sub_eq_add_neg] at h

/-- What the sum of two points makes of `1 + d * y ^ 2`. -/
theorem one_add_mul_sq_add (P Q : Edwards) :
    (1 - cross P Q) ^ 2 * (1 + constD * (P + Q).y ^ 2) *
        ((1 + constD * P.y ^ 2) * (1 + constD * Q.y ^ 2)) =
      (1 + constD) * (1 + constD * P.y ^ 2 * Q.y ^ 2) ^ 2 := by
  have hP := P.equation
  have hQ := Q.equation
  have hy : (1 - cross P Q) ^ 2 * (1 + constD * (P + Q).y ^ 2) =
      (1 - cross P Q) ^ 2 + constD * (P.y * Q.y + P.x * Q.x) ^ 2 := by
    rw [← add_y]
    ring
  rw [hy, cross]
  linear_combination
    -(1 + constD * P.y ^ 2 * Q.y ^ 2) * constD *
      (Q.x ^ 2 * (1 + constD * Q.y ^ 2) * hP + (P.y ^ 2 - 1) * hQ)

theorem isSquare_neg_one_sub_constD : IsSquare (-1 - constD) := by
  have h : rootMinusD * rootMinusD = -1 - curveD := by decide +kernel
  refine ⟨toZMod rootMinusD, ?_⟩
  rw [← toZMod_mul, h, toZMod_sub, toZMod_neg, toZMod_one, constD]

/-- The points for which `-1 - d * y ^ 2` is a square. -/
def even : AddSubgroup Edwards where
  carrier := {P | IsSquare (-1 - constD * P.y ^ 2)}
  add_mem' {P Q} := by
    rintro ⟨a, ha⟩ ⟨b, hb⟩
    obtain ⟨c, hc⟩ := isSquare_neg_one_sub_constD
    have hsum := one_add_mul_sq_add P Q
    have hab : a * b * (a * b) = (1 + constD * P.y ^ 2) * (1 + constD * Q.y ^ 2) := by
      linear_combination (-b * b) * ha + (1 + constD * P.y ^ 2) * hb
    have hne : (1 - cross P Q) * (a * b) ≠ 0 := by
      refine mul_ne_zero (one_sub_cross_ne_zero P Q) (mul_self_ne_zero.1 ?_)
      rw [hab]
      exact mul_ne_zero (one_add_mul_sq_ne_zero _) (one_add_mul_sq_ne_zero _)
    refine ⟨c * (1 + constD * P.y ^ 2 * Q.y ^ 2) / ((1 - cross P Q) * (a * b)), ?_⟩
    rw [div_mul_div_comm, eq_div_iff (mul_ne_zero hne hne)]
    linear_combination
      (-(1 - cross P Q) ^ 2 * (1 + constD * (P + Q).y ^ 2)) * hab - hsum +
        (1 + constD * P.y ^ 2 * Q.y ^ 2) ^ 2 * hc
  zero_mem' := by
    have h := isSquare_neg_one_sub_constD
    simpa using h
  neg_mem' h := h

theorem mem_even_iff : P ∈ even ↔ IsSquare (-1 - constD * P.y ^ 2) := Iff.rfl

/-- The root of an even point is not zero. -/
theorem exists_root_of_mem_even (h : P ∈ even) : ∃ a, a ≠ 0 ∧ -1 - constD * P.y ^ 2 = a * a := by
  obtain ⟨a, ha⟩ := h
  refine ⟨a, ?_, ha⟩
  rintro rfl
  refine one_add_mul_sq_ne_zero P.y ?_
  linear_combination -ha

/-- The points that four takes to zero are even. -/
theorem mem_even_of_mul_eq_zero (h : P.x * P.y = 0) : P ∈ even := by
  rw [mem_even_iff]
  rcases mul_eq_zero.1 h with hx | hy
  · rw [sq_y_of_x_eq_zero hx, mul_one]
    exact isSquare_neg_one_sub_constD
  · refine ⟨rootMinusOne, ?_⟩
    rw [hy, ← sq, rootMinusOne_sq]
    ring

/-- Of points that have the same quadruple, all are even or none is. -/
theorem mem_even_of_four_nsmul_eq (h : 4 • Q = 4 • P) (hP : P ∈ even) : Q ∈ even := by
  have hdiff : Q - P ∈ even := by
    refine mem_even_of_mul_eq_zero (four_nsmul_eq_zero_iff.1 ?_)
    rw [nsmul_sub, h, sub_self]
  have hsum := even.add_mem hdiff hP
  rwa [sub_add_cancel] at hsum

/-! ## The number of points -/

/-- The first coordinate of a point, and the parity of the second. -/
def toParity (P : Edwards) : ZMod fieldPrime × Bool := (P.x, P.y.val % 2 == 1)

theorem toParity_injective : Function.Injective toParity := by
  intro P Q h
  rw [toParity, toParity, Prod.mk.injEq] at h
  obtain ⟨hx, hparity⟩ := h
  have hsq : P.y ^ 2 = Q.y ^ 2 := by
    have hP := P.equation
    have hQ := Q.equation
    rw [hx] at hP
    refine mul_right_cancel₀ (one_sub_mul_sq_ne_zero Q.x) ?_
    linear_combination hP - hQ
  ext
  · exact hx
  · refine eq_of_sq_eq_sq hsq ?_
    have hbool := Bool.eq_iff_iff.1 hparity
    rw [beq_iff_eq, beq_iff_eq] at hbool
    omega

instance : Finite Edwards := Finite.of_injective toParity toParity_injective

theorem natCard_le : Nat.card Edwards ≤ fieldPrime * 2 := by
  refine (Nat.card_le_card_of_injective toParity toParity_injective).trans_eq ?_
  rw [Nat.card_prod, Nat.card_zmod, Nat.card_eq_fintype_card, Fintype.card_bool]

/-- The point of the generator. -/
def generator : Edwards := ofAffine Point.generator.x Point.generator.y (by decide +kernel)

theorem standsFor_generator : Point.generator.StandsFor generator := .ofAffine _

theorem addOrderOf_generator : addOrderOf generator = order := by
  have : Fact order.Prime := ⟨prime_order⟩
  have hx : (Point.generator.smul order).x = 0 := by decide +kernel
  have hy : (Point.generator.smul order).y = (Point.generator.smul order).z := by decide +kernel
  refine addOrderOf_eq_prime ((standsFor_generator.smul order).eq_zero hx hy) fun h => ?_
  have hzero : toZMod Point.generator.x = 0 := congrArg Edwards.x h
  exact absurd (toZMod_eq_zero.1 hzero) (by decide +kernel)

theorem generator_mem_even : generator ∈ even := by
  have h : IsSquare (toZMod (-1 - curveD * (Point.generator.y * Point.generator.y))) := by
    rw [isSquare_iff (by decide +kernel)]
    decide +kernel
  simpa [mem_even_iff, generator, ofAffine, constD, sq] using h

/-- The first coordinate of a point of order eight. -/
def eighthX : Field := 0x1fd5b9a006394a28e933993238de4abb5c193c7013e5e238dea14646c545d14a

/-- The second coordinate of a point of order eight. -/
def eighthY : Field := 0x7a03ac9277fdc74ec6cc392cfa53202a0f67100d760b3cba4fd84d3d706a17c7

/-- A point of order eight. -/
def eighth : Edwards := ofAffine eighthX eighthY (by decide +kernel)

/-- The double of the point has a second coordinate zero. -/
theorem add_self_eighth_y : (eighth + eighth).y = 0 := by
  have hsum : eighthY * eighthY + eighthX * eighthX = 0 := by decide +kernel
  have hzero : eighth.y * eighth.y + eighth.x * eighth.x = 0 := by
    rw [← toZMod_zero, ← hsum, toZMod_add, toZMod_mul, toZMod_mul]
    rfl
  exact add_y_eq_zero_iff.2 hzero

theorem addOrderOf_eighth : addOrderOf eighth = 2 ^ 3 := by
  refine addOrderOf_eq_prime_pow (fun h => ?_) ?_
  · rcases mul_eq_zero.1 (four_nsmul_eq_zero_iff.1 h) with hx | hy
    · exact absurd (toZMod_eq_zero.1 hx) (by decide +kernel)
    · exact absurd (toZMod_eq_zero.1 hy) (by decide +kernel)
  · have height : 2 ^ (2 + 1) • eighth = 4 • (eighth + eighth) := by
      norm_num
      abel
    rw [height, four_nsmul_eq_zero_iff, add_self_eighth_y, mul_zero]

theorem eighth_not_mem_even : eighth ∉ even := by
  have h : ¬IsSquare (toZMod (-1 - curveD * (eighthY * eighthY))) := by
    rw [isSquare_iff (by decide +kernel)]
    decide +kernel
  rw [mem_even_iff]
  simpa only [eighth, ofAffine, constD, toZMod_sub, toZMod_neg, toZMod_one, toZMod_mul, sq] using h

theorem natCard : Nat.card Edwards = 8 * order := by
  have h8 : 2 ^ 3 ∣ Nat.card Edwards := addOrderOf_eighth ▸ addOrderOf_dvd_natCard _
  have horder : order ∣ Nat.card Edwards := addOrderOf_generator ▸ addOrderOf_dvd_natCard _
  -- What the coprime orders divide is too small for twice their product.
  obtain ⟨k, hk⟩ : 8 * order ∣ Nat.card Edwards :=
    Nat.Coprime.mul_dvd_of_dvd_of_dvd (by decide +kernel) h8 horder
  have hle := natCard_le
  have hpos : 0 < Nat.card Edwards := Nat.card_pos
  have hbound : fieldPrime * 2 < 8 * order * 2 := by decide
  have hk1 : 0 < k := Nat.pos_of_mul_pos_left (hk ▸ hpos)
  have hk2 : k < 2 := Nat.lt_of_mul_lt_mul_left ((hk ▸ hle).trans_lt hbound)
  obtain rfl : k = 1 := by omega
  rw [hk, mul_one]

/-- Four times the order takes the even points to zero. -/
theorem nsmul_eq_zero_of_even (hP : P ∈ even) : order • 4 • P = 0 := by
  have horder : order ∣ Nat.card even := by
    rw [← addOrderOf_generator, ← AddSubgroup.addOrderOf_mk _ generator_mem_even]
    exact addOrderOf_dvd_natCard _
  obtain ⟨m, hm⟩ := horder
  -- The even points are a part of the points, and not all of them.
  have hdvd : m ∣ 8 := by
    have hcard := AddSubgroup.card_addSubgroup_dvd_card even
    rw [hm, natCard, mul_comm 8] at hcard
    exact Nat.dvd_of_mul_dvd_mul_left (by decide) hcard
  have hne : m ≠ 8 := by
    rintro rfl
    have htop : even = ⊤ := AddSubgroup.eq_top_of_card_eq even (by rw [hm, natCard, mul_comm])
    exact eighth_not_mem_even (htop ▸ AddSubgroup.mem_top _)
  obtain ⟨k, hk⟩ : m ∣ 4 := by
    have hle := Nat.le_of_dvd (by decide) hdvd
    interval_cases m <;> simp_all
  -- So the number of the even points divides four times the order.
  have hzero : (order * m) • P = 0 := by
    have h : Nat.card even • (⟨P, hP⟩ : even) = 0 := card_nsmul_eq_zero'
    rw [← hm]
    exact congrArg Subtype.val h
  rw [← mul_nsmul', hk, ← mul_assoc, mul_comm, mul_nsmul', hzero, nsmul_zero]

end Edwards

end Ristretto

end PrivateMatching
