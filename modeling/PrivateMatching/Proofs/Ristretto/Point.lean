import PrivateMatching.Proofs.Ristretto.Edwards

/-!
# Extended coordinates of points of the Edwards curve

Extended coordinates stand for points of the Edwards curve (`Point.StandsFor`).
Sums, doubles and multiples of coordinates stand for those of the points
(`Point.StandsFor.add`, `Point.StandsFor.double`, `Point.StandsFor.smul`).
-/

namespace PrivateMatching

namespace Ristretto

open PrivateMatching.Modular

namespace Point

/-- Coordinates stand for a point of the Edwards curve. -/
structure StandsFor (p : Point) (P : Edwards) : Prop where
  z_ne_zero : toZMod p.z ≠ 0
  x_eq : toZMod p.x = P.x * toZMod p.z
  y_eq : toZMod p.y = P.y * toZMod p.z
  t_eq : toZMod p.t = P.x * P.y * toZMod p.z

namespace StandsFor

variable {p q : Point} {P Q : Edwards}

/-- Coordinates stand for one point. -/
theorem unique (hP : p.StandsFor P) (hQ : p.StandsFor Q) : P = Q := by
  ext
  · exact mul_right_cancel₀ hP.z_ne_zero (hP.x_eq.symm.trans hQ.x_eq)
  · exact mul_right_cancel₀ hP.z_ne_zero (hP.y_eq.symm.trans hQ.y_eq)

theorem identity : Point.identity.StandsFor 0 := by
  constructor <;> simp [Point.identity]

/-- What the four factors of a sum stand for. -/
theorem ofFactors {e f g h : Field} (hf : toZMod f ≠ 0) (hg : toZMod g ≠ 0)
    (hx : toZMod e = P.x * toZMod g) (hy : toZMod h = P.y * toZMod f) :
    (Point.ofFactors e f g h).StandsFor P where
  z_ne_zero := by
    rw [Point.ofFactors, toZMod_mul]
    exact mul_ne_zero hf hg
  x_eq := by
    simp only [Point.ofFactors, toZMod_mul, hx]
    ring
  y_eq := by
    simp only [Point.ofFactors, toZMod_mul, hy]
    ring
  t_eq := by
    simp only [Point.ofFactors, toZMod_mul, hx, hy]
    ring

/-- The sum of coordinates stands for the sum of the points. -/
theorem add (hp : p.StandsFor P) (hq : q.StandsFor Q) : (p.add q).StandsFor (P + Q) := by
  have hx := Edwards.add_x P Q
  have hy := Edwards.add_y P Q
  have hz : 2 * (toZMod p.z * toZMod q.z) ≠ 0 :=
    mul_ne_zero two_ne_zero (mul_ne_zero hp.z_ne_zero hq.z_ne_zero)
  have hd : toZMod curveD = constD := rfl
  have hplus : toZMod (2 * (p.z * q.z) + 2 * curveD * (p.t * q.t)) =
      2 * (toZMod p.z * toZMod q.z) * (1 + Edwards.cross P Q) := by
    simp only [toZMod_add, toZMod_mul, toZMod_literal, hp.t_eq, hq.t_eq, hd, Edwards.cross]
    ring
  have hminus : toZMod (2 * (p.z * q.z) - 2 * curveD * (p.t * q.t)) =
      2 * (toZMod p.z * toZMod q.z) * (1 - Edwards.cross P Q) := by
    simp only [toZMod_sub, toZMod_mul, toZMod_literal, hp.t_eq, hq.t_eq, hd, Edwards.cross]
    ring
  refine ofFactors ?_ ?_ ?_ ?_
  · rw [hminus]
    exact mul_ne_zero hz (Edwards.one_sub_cross_ne_zero P Q)
  · rw [hplus]
    exact mul_ne_zero hz (Edwards.one_add_cross_ne_zero P Q)
  · rw [hplus]
    simp only [toZMod_add, toZMod_sub, toZMod_mul, hp.x_eq, hp.y_eq, hq.x_eq, hq.y_eq]
    linear_combination (-2 * (toZMod p.z * toZMod q.z)) * hx
  · rw [hminus]
    simp only [toZMod_add, toZMod_sub, toZMod_mul, hp.x_eq, hp.y_eq, hq.x_eq, hq.y_eq]
    linear_combination (-2 * (toZMod p.z * toZMod q.z)) * hy

/-- The double of coordinates stands for the double of the point. -/
theorem double (hp : p.StandsFor P) : p.double.StandsFor (P + P) := by
  have hx := Edwards.add_x P P
  have hy := Edwards.add_y P P
  -- By the equation of the curve, the difference of the squares is a denominator.
  have hplus : toZMod (p.y * p.y - p.x * p.x) = toZMod p.z ^ 2 * (1 + Edwards.cross P P) := by
    simp only [toZMod_sub, toZMod_mul, hp.x_eq, hp.y_eq, Edwards.cross]
    linear_combination toZMod p.z ^ 2 * P.equation
  have hminus : toZMod (p.y * p.y - p.x * p.x - 2 * (p.z * p.z)) =
      -toZMod p.z ^ 2 * (1 - Edwards.cross P P) := by
    rw [toZMod_sub, hplus]
    simp only [toZMod_mul, toZMod_literal]
    ring
  have hz : toZMod p.z ^ 2 ≠ 0 := pow_ne_zero 2 hp.z_ne_zero
  refine ofFactors ?_ ?_ ?_ ?_
  · rw [hminus]
    exact mul_ne_zero (neg_ne_zero.2 hz) (Edwards.one_sub_cross_ne_zero P P)
  · rw [hplus]
    exact mul_ne_zero hz (Edwards.one_add_cross_ne_zero P P)
  · rw [hplus]
    simp only [toZMod_add, toZMod_sub, toZMod_mul, hp.x_eq, hp.y_eq]
    linear_combination -toZMod p.z ^ 2 * hx
  · rw [hminus]
    simp only [toZMod_sub, toZMod_neg, toZMod_mul, hp.x_eq, hp.y_eq]
    linear_combination toZMod p.z ^ 2 * hy

/-- The coordinates of an affine point stand for it. -/
theorem ofAffine {x y : Field} (h : y * y - x * x = 1 + curveD * (x * x) * (y * y)) :
    (Point.ofAffine x y).StandsFor (Edwards.ofAffine x y h) := by
  constructor <;> simp [Point.ofAffine, Edwards.ofAffine]

/-- The coordinates of the identity stand for zero. -/
theorem eq_zero (hp : p.StandsFor P) (hx : p.x = 0) (hy : p.y = p.z) : P = 0 := by
  have hpx := hp.x_eq
  have hpy := hp.y_eq
  rw [hx, toZMod_zero] at hpx
  rw [hy] at hpy
  ext
  · exact (mul_eq_zero.1 hpx.symm).resolve_right hp.z_ne_zero
  · exact mul_right_cancel₀ hp.z_ne_zero (hpy.symm.trans (one_mul _).symm)

end StandsFor

/-! ## The point that coordinates stand for -/

open Classical in
/-- The point that coordinates stand for, if there is one. -/
noncomputable def value (p : Point) : Edwards :=
  if h : ∃ P, p.StandsFor P then h.choose else 0

variable {p : Point} {P : Edwards}

theorem StandsFor.value_eq (h : p.StandsFor P) : p.value = P := by
  have hex : ∃ P, p.StandsFor P := ⟨P, h⟩
  rw [value, dif_pos hex]
  exact hex.choose_spec.unique h

/-- The multiple of coordinates stands for the multiple of the point. -/
theorem StandsFor.smul (h : p.StandsFor P) (n : ℕ) : (p.smul n).StandsFor (n • P) := by
  have hvalue : Multiplicative.ofAdd (p.smul n).value = Multiplicative.ofAdd p.value ^ n := by
    refine map_power (P := fun p : Point => ∃ P, p.StandsFor P)
      (f := fun p : Point => Multiplicative.ofAdd p.value) ⟨⟨0, identity⟩, ?_⟩ ?_ ?_ ⟨P, h⟩ n
    · rw [identity.value_eq, ofAdd_zero]
    · rintro p q ⟨P, hp⟩ ⟨Q, hq⟩
      exact ⟨⟨P + Q, hp.add hq⟩, by rw [(hp.add hq).value_eq, hp.value_eq, hq.value_eq, ofAdd_add]⟩
    · rintro p ⟨P, hp⟩
      exact ⟨⟨P + P, hp.double⟩, by rw [hp.double.value_eq, hp.value_eq, ofAdd_add]⟩
  obtain ⟨Q, hQ⟩ : ∃ Q, (p.smul n).StandsFor Q :=
    power_induction (P := fun p : Point => ∃ P, p.StandsFor P) ⟨0, identity⟩
      (fun _ _ ⟨P, hp⟩ ⟨Q, hq⟩ => ⟨P + Q, hp.add hq⟩) (fun _ ⟨P, hp⟩ => ⟨P + P, hp.double⟩) ⟨P, h⟩ n
  have hQP : Q = n • P := by
    rw [hQ.value_eq, h.value_eq, ← ofAdd_nsmul] at hvalue
    exact hvalue
  rwa [← hQP]

end Point

end Ristretto

end PrivateMatching
