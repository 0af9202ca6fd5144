import Mathlib.GroupTheory.Perm.Cycle.Type
import PrivateMatching.Proofs.P256.Compressed
import PrivateMatching.Proofs.P256.Group
import PrivateMatching.Proofs.Reading

/-!
# P-256 as a group

The points on the curve are read in the group of the elliptic curve (`reading`),
and their encodings are canonical (`reading_isCanonical`). What is left is that
the group has the order of the generator (`order_nsmul`): the order is a multiple
of it, at most twice of it as two points at most share a first coordinate, and
not twice of it as no point is its own negative.
-/

namespace PrivateMatching

namespace P256

open PrivateMatching.Modular

/-! ## The order of the group -/

/-- Every point of the elliptic curve is the value of a point on the curve. -/
theorem Point.exists_value (P : curve.Point) : ∃ p : Point, p.isOnCurve = true ∧ p.value = P := by
  rcases P with _ | ⟨x, y, h⟩
  · exact ⟨infinity, rfl, rfl⟩
  · obtain ⟨x, rfl⟩ := toZMod_surjective x
    obtain ⟨y, rfl⟩ := toZMod_surjective y
    have hcurve := isOnCurve_affine.2 (curve_equation_iff.1 h.1)
    exact ⟨affine x y, hcurve, dif_pos hcurve⟩

/-- The point with a first coordinate and a parity, or that at infinity. -/
def ofParity : Option (Field × Bool) → curve.Point
  | none => 0
  | some (x, odd) => ((Point.lift? odd x.val).getD .infinity).value

theorem ofParity_surjective : Function.Surjective ofParity := by
  intro P
  obtain ⟨p, hp, rfl⟩ := Point.exists_value P
  rcases p with _ | ⟨x, y⟩
  · exact ⟨none, rfl⟩
  · refine ⟨some (x, Field.isOdd y), ?_⟩
    rw [ofParity, Point.lift?_of_isOnCurve hp, Option.getD_some]

instance : Finite curve.Point := Finite.of_surjective ofParity ofParity_surjective

theorem natCard_point_le : Nat.card curve.Point ≤ fieldPrime * 2 + 1 := by
  refine (Nat.card_le_card_of_surjective ofParity ofParity_surjective).trans_eq ?_
  rw [Nat.card_eq_fintype_card, Fintype.card_option, Fintype.card_prod, Fintype.card_fin,
    Fintype.card_bool]

/-- No point is its own negative, except that at infinity. -/
theorem add_self_ne_zero {P : curve.Point} (hP : P ≠ 0) : P + P ≠ 0 := by
  rcases P with _ | ⟨x, y, h⟩
  · exact absurd rfl hP
  · rw [WeierstrassCurve.Affine.Point.add_self_of_Y_ne (ne_negY_of_equation h.1)]
    exact WeierstrassCurve.Affine.Point.some_ne_zero _

theorem value_generator_ne_zero : Point.generator.value ≠ 0 := fun h =>
  Point.noConfusion (Point.value_injective (q := .infinity) Point.isOnCurve_generator rfl h)

theorem addOrderOf_generator : addOrderOf Point.generator.value = order := by
  have hsmul : Point.generator.smul order = .infinity := by decide +kernel
  have : Fact order.Prime := ⟨prime_order⟩
  refine addOrderOf_eq_prime ?_ value_generator_ne_zero
  rw [← Point.value_smul Point.isOnCurve_generator, hsmul]
  rfl

theorem natCard_point : Nat.card curve.Point = order := by
  obtain ⟨k, hk⟩ : order ∣ Nat.card curve.Point := addOrderOf_generator ▸ addOrderOf_dvd_natCard _
  -- The bound leaves once and twice the order.
  have hle := natCard_point_le
  have hpos : 0 < Nat.card curve.Point := Nat.card_pos
  have hbound : fieldPrime * 2 + 1 < order * 3 := by decide
  have hk1 : 0 < k := Nat.pos_of_mul_pos_left (hk ▸ hpos)
  have hk3 : k < 3 := Nat.lt_of_mul_lt_mul_left ((hk ▸ hle).trans_lt hbound)
  obtain rfl | rfl : k = 1 ∨ k = 2 := by omega
  · rw [hk, mul_one]
  · -- A group of even order has an element of order two.
    obtain ⟨P, hP⟩ := exists_prime_addOrderOf_dvd_card' 2 (hk ▸ Dvd.intro_left order rfl)
    have hne : P ≠ 0 := by
      rintro rfl
      rw [addOrderOf_zero] at hP
      exact absurd hP (by decide)
    refine absurd ?_ (add_self_ne_zero hne)
    rw [← two_nsmul, ← hP, addOrderOf_nsmul_eq_zero]

/-- The order takes every point to zero. -/
theorem order_nsmul (P : curve.Point) : order • P = 0 := by
  rw [← natCard_point]
  exact card_nsmul_eq_zero'

/-! ## The reading -/

/-- P-256, read in the group of the elliptic curve. -/
def reading : suite.Reading (Multiplicative curve.Point) where
  Sound p := Point.isOnCurve p = true
  value p := Multiplicative.ofAdd (Point.value p)
  value_pow_order _ := by
    change Multiplicative.ofAdd (order • _) = 1
    rw [order_nsmul, ofAdd_zero]
  sound_one := rfl
  value_one := rfl
  sound_generator := Point.isOnCurve_generator
  sound_mul := Point.isOnCurve_add
  value_mul hp hq := congrArg Multiplicative.ofAdd (Point.value_add hp hq)
  sound_exp hp s := Point.isOnCurve_smul hp s.val
  value_exp hp s := congrArg Multiplicative.ofAdd (Point.value_smul hp s.val)
  equal_iff hp hq := beq_iff_eq.trans ⟨fun h => by rw [h], Point.value_injective hp hq⟩
  isIdentity_iff {p} hp := by
    constructor
    · intro h
      rcases p with _ | ⟨x, y⟩
      · rfl
      · cases h
    · intro h
      rw [Point.value_injective hp (q := .infinity) rfl h]
      rfl
  sound_of_decode h := Point.isOnCurve_of_decode h
  value_ne_one_of_decode h h' :=
    Point.ne_infinity_of_decode h (Point.value_injective (Point.isOnCurve_of_decode h) rfl h')

theorem reading_isCanonical : reading.IsCanonical where
  encode_congr hp hq h := congrArg Point.encode (Point.value_injective hp hq h)
  encode_of_decode h := Point.encode_of_decode h
  decode_encode {p} hp hone := by
    rcases p with _ | ⟨x, y⟩
    · exact absurd rfl hone
    · exact ⟨_, Point.decode_encode hp, rfl⟩

end P256

end PrivateMatching
