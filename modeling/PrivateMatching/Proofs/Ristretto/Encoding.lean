import PrivateMatching.Proofs.Ristretto.Classes
import PrivateMatching.Ristretto.Encoding

/-!
# Encodings of classes

The number of a class is the root of `(1 - y) / (1 + y)` that is not negative, for
its normal representative (`Point.canonical_spec`); a class with a coordinate
that is zero has the number zero (`Point.canonical_of_mul_eq_zero`). From the
number, the representative is found again (`Point.ofCanonical?_of_normal`), and
what is found is even and not negative (`Point.of_ofCanonical?`).
-/

namespace PrivateMatching

namespace Ristretto

open PrivateMatching.Modular

namespace Edwards

variable {P : Edwards}

/-- A number is the one of a point, up to its sign. -/
def HasCode (P : Edwards) (s : Field) : Prop := toZMod s ^ 2 * (1 + P.y) = 1 - P.y

/-- What the equation of the curve says of `1 - y ^ 2`. -/
theorem one_sub_sq_y (P : Edwards) : 1 - P.y ^ 2 = P.x ^ 2 * (-1 - constD * P.y ^ 2) := by
  linear_combination -P.equation

theorem one_add_y_ne_zero (h : P.x ≠ 0) : 1 + P.y ≠ 0 := by
  intro hy
  have hsq := one_sub_sq_y P
  have hne := one_add_mul_sq_ne_zero P.y
  have hzero : P.x ^ 2 * (1 + constD * P.y ^ 2) = 0 := by
    linear_combination hsq - (1 - P.y) * hy
  exact mul_ne_zero (pow_ne_zero 2 h) hne hzero

/-- The number of a point determines the second coordinate. -/
theorem HasCode.y_mul {s : Field} (h : P.HasCode s) :
    P.y * (1 + toZMod s ^ 2) = 1 - toZMod s ^ 2 := by
  rw [HasCode] at h
  linear_combination h

theorem HasCode.one_add_sq_ne_zero {s : Field} (h : P.HasCode s) : 1 + toZMod s ^ 2 ≠ 0 := by
  rw [HasCode] at h
  have hmul : (1 + toZMod s ^ 2) * (1 + P.y) = 2 := by linear_combination h
  exact left_ne_zero_of_mul (hmul ▸ two_ne_zero)

/-- A number that is not negative is told by a point that has it. -/
theorem HasCode.unique {s t : Field} (hs : P.HasCode s) (ht : P.HasCode t) (hx : P.x ≠ 0)
    (hs0 : Field.isNegative s = false) (ht0 : Field.isNegative t = false) : s = t :=
  Field.eq_of_sq_eq hs0 ht0 (mul_right_cancel₀ (one_add_y_ne_zero hx) (hs.trans ht.symm))

end Edwards

namespace Point

/-! ## Encoding -/

/-- The inverse root that encoding takes. -/
def root (p : Point) : Field :=
  (Field.sqrtRatio 1 ((p.z + p.y) * (p.z - p.y) * (p.x * p.y * (p.x * p.y)))).2

/-- The inverse of the denominator. -/
def zInverse (p : Point) : Field :=
  p.root * ((p.z + p.y) * (p.z - p.y)) * (p.root * (p.x * p.y)) * p.t

/-- The last step of encoding. -/
def number (x y z zInverse den : Field) : Field :=
  Field.abs (den * (z - if Field.isNegative (x * zInverse) then -y else y))

theorem canonical_eq (p : Point) : p.canonical =
    if Field.isNegative (p.t * p.zInverse) then
      number (p.y * Field.sqrtMinusOne) (p.x * Field.sqrtMinusOne) p.z p.zInverse
        (p.root * ((p.z + p.y) * (p.z - p.y)) * inverseRootMinusD)
    else
      number p.x p.y p.z p.zInverse (p.root * (p.x * p.y)) := by
  cases h : Field.isNegative (p.t * p.zInverse) with
  | true =>
    simp only [zInverse, root] at h
    simp only [canonical, number, zInverse, root, h, if_true]
    rfl
  | false =>
    simp only [zInverse, root] at h
    simp only [canonical, number, zInverse, root, h, Bool.false_eq_true, if_false]
    rfl

theorem isNegative_canonical (p : Point) : Field.isNegative p.canonical = false :=
  Field.isNegative_abs _

variable {p : Point} {P : Edwards}

/-- The last step gives the number of the normal one of two points that are
    across. -/
theorem number_spec {x y z zInverse den : Field} (hx : toZMod x = P.x * toZMod z)
    (hy : toZMod y = P.y * toZMod z) (hz : toZMod zInverse * toZMod z = 1)
    (hden : toZMod den ^ 2 * (toZMod z ^ 2 - toZMod y ^ 2) = 1)
    (hmul : IsNonnegative (P.x * P.y)) (hne : P.x * P.y ≠ 0) :
    ∃ Q : Edwards, Q.Normal ∧ 4 • Q = 4 • P ∧ Q.HasCode (number x y z zInverse den) := by
  have hz0 : toZMod z ≠ 0 := right_ne_zero_of_mul (hz ▸ one_ne_zero)
  have hsign : toZMod (x * zInverse) = P.x := by
    rw [toZMod_mul, hx]
    linear_combination P.x * hz
  have hsquare : ∀ y' : ZMod fieldPrime, y' ^ 2 = P.y ^ 2 →
      (toZMod den * (toZMod z - y' * toZMod z)) ^ 2 * (1 + y') = 1 - y' := by
    intro y' hy'
    rw [hy] at hden
    linear_combination (1 - y') * hden +
      toZMod den ^ 2 * toZMod z ^ 2 * (y' - 1) * hy'
  obtain ⟨hpos, hneg⟩ := Edwards.exists_normal hmul hne
  rw [← hsign, isNonnegative_toZMod] at hpos hneg
  by_cases h : Field.isNegative (x * zInverse) = false
  · refine ⟨P, hpos h, rfl, ?_⟩
    rw [Edwards.HasCode, number, h, Field.toZMod_abs_sq]
    simp only [Bool.false_eq_true, if_false, toZMod_mul, toZMod_sub, hy]
    exact hsquare P.y rfl
  · refine ⟨P.halfTurn, hneg h, P.four_nsmul_halfTurn, ?_⟩
    rw [Bool.not_eq_false] at h
    rw [Edwards.HasCode, number, h, Field.toZMod_abs_sq]
    simp only [if_true, toZMod_mul, toZMod_sub, toZMod_neg, hy, ← neg_mul]
    exact hsquare (-P.y) (neg_sq _)

/-- The constant is an inverse root. -/
theorem inverseRootMinusD_sq : toZMod inverseRootMinusD ^ 2 * (-1 - constD) = 1 := by
  have h : inverseRootMinusD * inverseRootMinusD * (-1 - curveD) = 1 := by decide +kernel
  have h' := congrArg toZMod h
  simp only [toZMod_mul, toZMod_sub, toZMod_neg, toZMod_one] at h'
  rw [constD]
  linear_combination h'

/-- Without denominator there is no number but zero. -/
theorem number_eq_zero {x y z zInverse den : Field} (h : toZMod den = 0) :
    number x y z zInverse den = 0 := by
  have hsq : toZMod (number x y z zInverse den) ^ 2 = 0 := by
    rw [number, Field.toZMod_abs_sq, toZMod_mul, h, zero_mul, zero_pow two_ne_zero]
  exact toZMod_eq_zero.1 (pow_eq_zero_iff two_ne_zero |>.1 hsq)

/-- A class with a coordinate that is zero has the number zero. -/
theorem canonical_of_mul_eq_zero (hp : p.StandsFor P) (h : P.x * P.y = 0) : p.canonical = 0 := by
  have hmul : p.x * p.y = 0 := by
    rw [← toZMod_eq_zero, toZMod_mul, hp.x_eq, hp.y_eq]
    linear_combination toZMod p.z ^ 2 * h
  have hroot : p.root = 0 := by
    have harg : (p.z + p.y) * (p.z - p.y) * (p.x * p.y * (p.x * p.y)) = 0 := by
      rw [hmul, ← toZMod_eq_zero]
      simp
    rw [root, harg, Field.sqrtRatio_one_zero]
  rw [canonical_eq, hroot]
  split
  · exact number_eq_zero (by simp)
  · exact number_eq_zero (by simp)

section Even

variable (hp : p.StandsFor P) (heven : P ∈ Edwards.even) (hne : P.x * P.y ≠ 0)
include hp heven hne

/-- The root is an inverse root. -/
theorem root_spec : toZMod p.root ^ 2 *
    (toZMod p.z ^ 2 * (1 - P.y ^ 2) * (P.x * P.y * toZMod p.z ^ 2) ^ 2) = 1 := by
  obtain ⟨a, ha0, ha⟩ := Edwards.exists_root_of_mem_even heven
  have hcurve := P.one_sub_sq_y
  have harg : toZMod ((p.z + p.y) * (p.z - p.y) * (p.x * p.y * (p.x * p.y))) =
      toZMod p.z ^ 2 * (1 - P.y ^ 2) * (P.x * P.y * toZMod p.z ^ 2) ^ 2 := by
    simp only [toZMod_mul, toZMod_add, toZMod_sub, hp.x_eq, hp.y_eq]
    ring
  have hsq : toZMod p.z ^ 2 * (1 - P.y ^ 2) * (P.x * P.y * toZMod p.z ^ 2) ^ 2 =
      P.x * toZMod p.z * a * (P.x * P.y * toZMod p.z ^ 2) *
        (P.x * toZMod p.z * a * (P.x * P.y * toZMod p.z ^ 2)) := by
    linear_combination toZMod p.z ^ 2 * (P.x * P.y * toZMod p.z ^ 2) ^ 2 * hcurve +
      toZMod p.z ^ 2 * (P.x * P.y * toZMod p.z ^ 2) ^ 2 * P.x ^ 2 * ha
  have hz := hp.z_ne_zero
  have hx : P.x ≠ 0 := left_ne_zero_of_mul hne
  have harg0 : (p.z + p.y) * (p.z - p.y) * (p.x * p.y * (p.x * p.y)) ≠ 0 := by
    rw [Ne, ← toZMod_eq_zero, harg, hsq]
    exact mul_self_ne_zero.2
      (mul_ne_zero (mul_ne_zero (mul_ne_zero hx hz) ha0) (mul_ne_zero hne (pow_ne_zero 2 hz)))
  rw [← harg]
  exact Field.sqrtRatio_one_spec (Field.sqrtRatio_one_of_isSquare harg0 ⟨_, harg.trans hsq⟩)

theorem zInverse_spec : toZMod p.zInverse * toZMod p.z = 1 := by
  have hroot := root_spec hp heven hne
  simp only [zInverse, toZMod_mul, toZMod_add, toZMod_sub, hp.x_eq, hp.y_eq, hp.t_eq]
  linear_combination hroot

/-- The sign by which encoding turns is that of the product of the coordinates. -/
theorem sign_spec : toZMod (p.t * p.zInverse) = P.x * P.y := by
  have hz := zInverse_spec hp heven hne
  rw [toZMod_mul, hp.t_eq]
  linear_combination P.x * P.y * hz

/-- Encoding does not turn a point whose product is not negative. -/
theorem number_of_nonneg (hsign : Field.isNegative (p.t * p.zInverse) = false) :
    ∃ Q : Edwards, Q.Normal ∧ 4 • Q = 4 • P ∧
      Q.HasCode (number p.x p.y p.z p.zInverse (p.root * (p.x * p.y))) := by
  have hroot := root_spec hp heven hne
  have hmul : IsNonnegative (P.x * P.y) := by
    rw [← sign_spec hp heven hne, isNonnegative_toZMod]
    exact hsign
  refine number_spec hp.x_eq hp.y_eq (zInverse_spec hp heven hne) ?_ hmul hne
  simp only [toZMod_mul, hp.x_eq, hp.y_eq]
  linear_combination hroot

/-- Encoding turns a point whose product is negative by a quarter. -/
theorem number_of_neg (hsign : Field.isNegative (p.t * p.zInverse) = true) :
    ∃ Q : Edwards, Q.Normal ∧ 4 • Q = 4 • P ∧
      Q.HasCode (number (p.y * Field.sqrtMinusOne) (p.x * Field.sqrtMinusOne) p.z p.zInverse
        (p.root * ((p.z + p.y) * (p.z - p.y)) * inverseRootMinusD)) := by
  have hroot := root_spec hp heven hne
  have hcurve := P.equation
  have hi := rootMinusOne_sq
  have hconstant := inverseRootMinusD_sq
  have hmul : IsNonnegative (P.quarterTurn.x * P.quarterTurn.y) := by
    rw [P.quarterTurn_mul, isNonnegative_neg hne, ← sign_spec hp heven hne, isNonnegative_toZMod,
      hsign]
    exact Bool.false_ne_true.symm
  have hne' : P.quarterTurn.x * P.quarterTurn.y ≠ 0 := by
    rw [P.quarterTurn_mul]
    exact neg_ne_zero.2 hne
  rw [← P.four_nsmul_quarterTurn]
  refine number_spec ?_ ?_ (zInverse_spec hp heven hne) ?_ hmul hne'
  · simp only [toZMod_mul, hp.y_eq, Edwards.quarterTurn, rootMinusOne]
    ring
  · simp only [toZMod_mul, hp.x_eq, Edwards.quarterTurn, rootMinusOne]
    ring
  · simp only [toZMod_mul, toZMod_add, toZMod_sub, hp.x_eq, hp.y_eq]
    rw [← rootMinusOne]
    linear_combination
      (-toZMod p.root ^ 2 * toZMod p.z ^ 6 * (1 - P.y ^ 2) ^ 2 *
          toZMod inverseRootMinusD ^ 2 * P.x ^ 2) * hi -
        toZMod p.root ^ 2 * toZMod p.z ^ 6 * (1 - P.y ^ 2) * toZMod inverseRootMinusD ^ 2 *
          hcurve +
        toZMod p.root ^ 2 * toZMod p.z ^ 6 * (1 - P.y ^ 2) * P.x ^ 2 * P.y ^ 2 * hconstant + hroot

/-- The number of a class is that of its normal representative. -/
theorem canonical_spec :
    ∃ Q : Edwards, Q.Normal ∧ 4 • Q = 4 • P ∧ Q.HasCode p.canonical := by
  rw [canonical_eq]
  by_cases hsign : Field.isNegative (p.t * p.zInverse) = true
  · rw [if_pos hsign]
    exact number_of_neg hp heven hne hsign
  · rw [if_neg hsign]
    exact number_of_nonneg hp heven hne (Bool.not_eq_true _ ▸ hsign)

end Even

/-! ## Decoding -/

/-- The value whose inverse root decoding takes, up to a square. -/
def radicand (s : Field) : Field :=
  -(curveD * ((1 - s * s) * (1 - s * s))) - (1 + s * s) * (1 + s * s)

/-- The inverse root that decoding takes, and whether there is one. -/
def inverseRoot (s : Field) : Bool × Field :=
  Field.sqrtRatio 1 (radicand s * ((1 + s * s) * (1 + s * s)))

/-- The first coordinate that is decoded. -/
def decodedX (s : Field) : Field := Field.abs (2 * s * ((inverseRoot s).2 * (1 + s * s)))

/-- The second coordinate that is decoded. -/
def decodedY (s : Field) : Field :=
  (1 - s * s) * ((inverseRoot s).2 * ((inverseRoot s).2 * (1 + s * s)) * radicand s)

theorem ofCanonical?_eq (s : Field) : ofCanonical? s =
    if !(inverseRoot s).1 || Field.isNegative (decodedX s * decodedY s) || decodedY s == 0 then none
    else some (ofAffine (decodedX s) (decodedY s)) := by
  rw [ofCanonical?, ← radicand, ← inverseRoot, decodedX, decodedY]
  rcases inverseRoot s with ⟨wasSquare, root⟩
  rfl

theorem toZMod_radicand (s : Field) : toZMod (radicand s) =
    -(constD * (1 - toZMod s ^ 2) ^ 2) - (1 + toZMod s ^ 2) ^ 2 := by
  simp only [radicand, toZMod_sub, toZMod_neg, toZMod_mul, toZMod_add, toZMod_one, constD]
  ring

/-- What is decoded satisfies the equation of the curve, times a denominator. -/
theorem decoded_equation {R : Type*} [CommRing R] {d s v x y : R}
    (hv : v = -(d * (1 - s ^ 2) ^ 2) - (1 + s ^ 2) ^ 2) (hy : y * (1 + s ^ 2) = 1 - s ^ 2)
    (hx : x ^ 2 * v = 4 * s ^ 2) :
    (y ^ 2 - x ^ 2) * (v * (1 + s ^ 2) ^ 2) = (1 + d * x ^ 2 * y ^ 2) * (v * (1 + s ^ 2) ^ 2) := by
  linear_combination
    ((y * (1 + s ^ 2) + (1 - s ^ 2)) * (v - 4 * d * s ^ 2)) * hy -
      ((1 + s ^ 2) ^ 2 * (1 + d * y ^ 2)) * hx - 4 * s ^ 2 * hv

section Found

variable {s : Field} (h : (inverseRoot s).1 = true)
include h

theorem inverseRoot_spec :
    toZMod (inverseRoot s).2 ^ 2 * (toZMod (radicand s) * (1 + toZMod s ^ 2) ^ 2) = 1 := by
  have hspec := Field.sqrtRatio_one_spec h
  simp only [toZMod_mul, toZMod_add, toZMod_one] at hspec
  rw [← inverseRoot] at hspec
  linear_combination hspec

theorem decodedY_spec : toZMod (decodedY s) * (1 + toZMod s ^ 2) = 1 - toZMod s ^ 2 := by
  have hroot := inverseRoot_spec h
  simp only [decodedY, toZMod_mul, toZMod_add, toZMod_sub, toZMod_one]
  linear_combination (1 - toZMod s ^ 2) * hroot

theorem decodedX_spec : toZMod (decodedX s) ^ 2 * toZMod (radicand s) = 4 * toZMod s ^ 2 := by
  have hroot := inverseRoot_spec h
  rw [decodedX, Field.toZMod_abs_sq]
  simp only [toZMod_mul, toZMod_add, toZMod_one, toZMod_literal]
  linear_combination 4 * toZMod s ^ 2 * hroot

/-- What is decoded is an even point of the curve that has the number. -/
theorem decoded_spec : ∃ P : Edwards, P ∈ Edwards.even ∧ P.HasCode s ∧
    P.x = toZMod (decodedX s) ∧ P.y = toZMod (decodedY s) := by
  have hroot := inverseRoot_spec h
  have hx := decodedX_spec h
  have hy := decodedY_spec h
  have hv := toZMod_radicand s
  have hden : toZMod (radicand s) * (1 + toZMod s ^ 2) ^ 2 ≠ 0 :=
    right_ne_zero_of_mul (hroot ▸ one_ne_zero)
  have hu : 1 + toZMod s ^ 2 ≠ 0 := fun h0 => hden (by rw [h0, zero_pow two_ne_zero, mul_zero])
  refine ⟨⟨toZMod (decodedX s), toZMod (decodedY s),
    mul_right_cancel₀ hden (decoded_equation hv hy hx)⟩, ?_, ?_, rfl, rfl⟩
  · refine ⟨toZMod (radicand s) * toZMod (inverseRoot s).2, mul_right_cancel₀ (pow_ne_zero 2 hu) ?_⟩
    linear_combination -hv - toZMod (radicand s) * hroot -
      constD * (toZMod (decodedY s) * (1 + toZMod s ^ 2) + (1 - toZMod s ^ 2)) * hy
  · refine mul_right_cancel₀ hu ?_
    linear_combination (toZMod s ^ 2 + 1) * hy

end Found

/-- What is found for a number. -/
theorem of_ofCanonical? {s : Field} (h : ofCanonical? s = some p) :
    ∃ P : Edwards, p.StandsFor P ∧ P ∈ Edwards.even ∧ P.HasCode s ∧ IsNonnegative P.x ∧
      IsNonnegative (P.x * P.y) := by
  rw [ofCanonical?_eq] at h
  split at h
  · cases h
  · rename_i hcond
    simp only [Bool.or_eq_true, Bool.not_eq_true', not_or, Bool.not_eq_false, Bool.not_eq_true,
      beq_iff_eq] at hcond
    obtain ⟨⟨hfound, hmul⟩, _⟩ := hcond
    obtain ⟨P, heven, hcode, hx, hy⟩ := decoded_spec hfound
    refine ⟨P, ?_, heven, hcode, ?_, ?_⟩
    · rw [← Option.some.inj h]
      constructor <;> simp [ofAffine, hx, hy]
    · rw [hx, isNonnegative_toZMod]
      exact Field.isNegative_abs _
    · rw [hx, hy, ← toZMod_mul, isNonnegative_toZMod]
      exact hmul

/-- The value behind the number of an even point, whose root decoding takes. -/
theorem radicand_of_hasCode {s : Field} (hcode : P.HasCode s) :
    toZMod (radicand s) = (1 + toZMod s ^ 2) ^ 2 * (-1 - constD * P.y ^ 2) := by
  have hy := hcode.y_mul
  rw [toZMod_radicand]
  linear_combination constD * (P.y * (1 + toZMod s ^ 2) + (1 - toZMod s ^ 2)) * hy

/-- Decoding finds an inverse root for the number of an even point. -/
theorem inverseRoot_of_hasCode {s : Field} (heven : P ∈ Edwards.even) (hcode : P.HasCode s) :
    (inverseRoot s).1 = true := by
  obtain ⟨a, ha0, ha⟩ := Edwards.exists_root_of_mem_even heven
  have hu0 := hcode.one_add_sq_ne_zero
  have harg : toZMod (radicand s * ((1 + s * s) * (1 + s * s))) =
      (1 + toZMod s ^ 2) ^ 2 * a * ((1 + toZMod s ^ 2) ^ 2 * a) := by
    simp only [toZMod_mul, toZMod_add, toZMod_one, radicand_of_hasCode hcode, ha]
    ring
  refine Field.sqrtRatio_one_of_isSquare ?_ ⟨_, harg⟩
  rw [Ne, ← toZMod_eq_zero, harg]
  exact mul_self_ne_zero.2 (mul_ne_zero (pow_ne_zero 2 hu0) ha0)

/-- Decoding finds an even point from its number, up to the sign of the first
    coordinate. -/
theorem decoded_of_hasCode {s : Field} (heven : P ∈ Edwards.even) (hcode : P.HasCode s) :
    toZMod (decodedY s) = P.y ∧ toZMod (decodedX s) ^ 2 = P.x ^ 2 := by
  have hfound := inverseRoot_of_hasCode heven hcode
  have hx := decodedX_spec hfound
  have hy := hcode.y_mul
  have hcurve := P.one_sub_sq_y
  constructor
  · exact mul_right_cancel₀ hcode.one_add_sq_ne_zero ((decodedY_spec hfound).trans hy.symm)
  · have hrad0 : toZMod (radicand s) ≠ 0 := by
      intro h0
      have hroot := inverseRoot_spec hfound
      rw [h0, zero_mul, mul_zero] at hroot
      exact zero_ne_one hroot
    refine mul_right_cancel₀ hrad0 (hx.trans ?_)
    rw [radicand_of_hasCode hcode]
    linear_combination (1 + toZMod s ^ 2) ^ 2 * hcurve +
      (P.y * (1 + toZMod s ^ 2) + (1 - toZMod s ^ 2)) * hy

/-- A normal even point is found from its number. -/
theorem ofCanonical?_of_normal {s : Field} (heven : P ∈ Edwards.even) (hP : P.Normal)
    (hcode : P.HasCode s) : ∃ p, ofCanonical? s = some p ∧ p.StandsFor P := by
  have hfound := inverseRoot_of_hasCode heven hcode
  obtain ⟨hy, hsq⟩ := decoded_of_hasCode heven hcode
  have hx : toZMod (decodedX s) = P.x := by
    refine eq_of_sq_eq_sq hsq ?_
    have hpos : IsNonnegative (toZMod (decodedX s)) :=
      isNonnegative_toZMod.2 (Field.isNegative_abs _)
    exact hpos.trans hP.x_nonneg.symm
  have hmul : Field.isNegative (decodedX s * decodedY s) = false := by
    rw [← isNonnegative_toZMod, toZMod_mul, hx, hy]
    exact hP.mul_nonneg
  have hy0 : decodedY s ≠ 0 := by
    rw [Ne, ← toZMod_eq_zero, hy]
    exact hP.y_ne_zero
  refine ⟨ofAffine (decodedX s) (decodedY s), ?_, ?_⟩
  · rw [ofCanonical?_eq, hfound, hmul, beq_false_of_ne hy0]
    rfl
  · constructor <;> simp [ofAffine, hx, hy]

end Point

end Ristretto

end PrivateMatching
