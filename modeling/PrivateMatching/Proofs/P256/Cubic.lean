import Mathlib.Tactic.LinearCombination
import PrivateMatching.Proofs.P256.Curve

/-!
# The cubic of the curve has no root

A root of the right-hand side of the curve would be a point with `y = 0`, which
is the same for both parity tags. There is none. Polynomials modulo the cubic
(`CubicResidue`) can be evaluated at a root, so a root `x` satisfies `g x = 0`
for the residue `g` of `X ^ p - X`. But `g` has an inverse
(`CubicResidue.frobenius_mul_inverse`).
-/

namespace PrivateMatching

namespace P256

open PrivateMatching.Modular

/-- A polynomial modulo `X ^ 3 - 3 * X + b`. -/
structure CubicResidue where
  /-- The constant coefficient. -/
  c₀ : Field
  /-- The coefficient of `X`. -/
  c₁ : Field
  /-- The coefficient of `X ^ 2`. -/
  c₂ : Field
  deriving DecidableEq

namespace CubicResidue

/-- The constant one. -/
def one : CubicResidue := ⟨1, 0, 0⟩

/-- The polynomial `X`. -/
def root : CubicResidue := ⟨0, 1, 0⟩

/-- The difference of two residues. -/
def sub (f g : CubicResidue) : CubicResidue := ⟨f.c₀ - g.c₀, f.c₁ - g.c₁, f.c₂ - g.c₂⟩

/-- The product of two residues, by `X ^ 3 = 3 * X - b`. -/
def mul (f g : CubicResidue) : CubicResidue :=
  let cube := f.c₁ * g.c₂ + f.c₂ * g.c₁
  let fourth := f.c₂ * g.c₂
  ⟨f.c₀ * g.c₀ - curveB * cube,
    f.c₀ * g.c₁ + f.c₁ * g.c₀ + 3 * cube - curveB * fourth,
    f.c₀ * g.c₂ + f.c₁ * g.c₁ + f.c₂ * g.c₀ + 3 * fourth⟩

/-- The residue of `X ^ p - X`. -/
def frobenius : CubicResidue := (power one mul (fun f => mul f f) root fieldPrime).sub root

/-- The inverse of the residue of `X ^ p - X`. -/
def inverse : CubicResidue where
  c₀ := 0xa969487079f1744798bf0de6fded091b66e9d328eb0645fe5d979d1339b7f47f
  c₁ := 0xa4a08891884100c13323460107a8d28eede4387fa3e6e9bfebec9f6d72d0b5cc
  c₂ := 0x4cde11cf86cb876cd59cf0115813c55af0ecd3cda667d98bb9a347a56aa74a6d

theorem frobenius_mul_inverse : mul frobenius inverse = one := by decide +kernel

/-- The value of a residue at an element of the field. -/
def eval (x : ZMod fieldPrime) (f : CubicResidue) : ZMod fieldPrime :=
  toZMod f.c₀ + toZMod f.c₁ * x + toZMod f.c₂ * x ^ 2

variable {x : ZMod fieldPrime}

theorem eval_one : eval x one = 1 := by
  simp only [eval, one, toZMod_one, toZMod_zero]
  ring

theorem eval_root : eval x root = x := by
  simp only [eval, root, toZMod_one, toZMod_zero]
  ring

theorem eval_sub (f g : CubicResidue) : eval x (f.sub g) = eval x f - eval x g := by
  simp only [eval, sub, toZMod_sub]
  ring

/-- At a root of the cubic, the value of a product is the product of the values. -/
theorem eval_mul (hx : x ^ 3 - 3 * x + constB = 0) (f g : CubicResidue) :
    eval x (mul f g) = eval x f * eval x g := by
  simp only [eval, mul, toZMod_add, toZMod_sub, toZMod_mul, toZMod_literal]
  rw [← constB]
  linear_combination
    -(toZMod f.c₁ * toZMod g.c₂ + toZMod f.c₂ * toZMod g.c₁ + toZMod f.c₂ * toZMod g.c₂ * x) * hx

/-- At a root of the cubic, the value of `X ^ p - X` is zero. -/
theorem eval_frobenius (hx : x ^ 3 - 3 * x + constB = 0) : eval x frobenius = 0 := by
  have hpow : eval x (power one mul (fun f => mul f f) root fieldPrime) = x ^ fieldPrime := by
    rw [map_power (P := fun _ => True) (f := eval x) ⟨trivial, eval_one⟩
      (fun f g _ _ => ⟨trivial, eval_mul hx f g⟩) (fun f _ => ⟨trivial, eval_mul hx f f⟩) trivial,
      eval_root]
  rw [frobenius, eval_sub, hpow, ZMod.pow_card, eval_root, sub_self]

end CubicResidue

/-- The right-hand side of the curve has no root. -/
theorem cubic_ne_zero (x : ZMod fieldPrime) : x ^ 3 - 3 * x + constB ≠ 0 := by
  intro hx
  -- `X ^ p - X` has an inverse modulo the cubic, but is zero at a root of it.
  have hone := CubicResidue.eval_mul hx .frobenius .inverse
  rw [CubicResidue.frobenius_mul_inverse, CubicResidue.eval_one, CubicResidue.eval_frobenius hx,
    zero_mul] at hone
  exact one_ne_zero hone

theorem curveValue_ne_zero (x : Field) : curveValue x ≠ 0 := by
  rw [Ne, ← toZMod_eq_zero, toZMod_curveValue]
  exact cubic_ne_zero _

/-- No point of the curve has a second coordinate zero. -/
theorem Point.ne_zero_of_isOnCurve {x y : Field} (h : (Point.affine x y).isOnCurve = true) :
    y ≠ 0 := by
  rintro rfl
  rw [isOnCurve, beq_iff_eq] at h
  refine curveValue_ne_zero x ?_
  rw [← h, ← toZMod_inj, toZMod_mul, toZMod_zero, zero_mul]

end P256

end PrivateMatching
