import PrivateMatching.Proofs.Ristretto.Edwards

/-!
# Signs and inverse roots

Of a residue and its negative one is not negative, unless they are zero, so a
square has one root that is not negative (`Field.eq_of_sq_eq`). The inverse root
of a square is found (`Field.sqrtRatio_one_of_isSquare`), and what is found is an
inverse root (`Field.sqrtRatio_one_spec`).
-/

namespace PrivateMatching

namespace Ristretto

namespace Field

open PrivateMatching.Modular

variable {a b v : Field}

theorem isNegative_neg (ha : a ≠ 0) : isNegative (-a) = !isNegative a := by
  rw [isNegative, isNegative, neg_mod_two ha]
  rcases Nat.mod_two_eq_zero_or_one a.val with h | h <;> rw [h] <;> rfl

theorem isNegative_zero : isNegative 0 = false := by decide

theorem isNegative_abs (a : Field) : isNegative (abs a) = false := by
  rw [abs]
  split
  · rename_i h
    have ha : a ≠ 0 := by
      rintro rfl
      rw [isNegative_zero] at h
      cases h
    rw [isNegative_neg ha, h, Bool.not_true]
  · rename_i h
    exact Bool.not_eq_true _ ▸ h

theorem toZMod_abs_sq (a : Field) : toZMod (abs a) ^ 2 = toZMod a ^ 2 := by
  rw [abs]
  split
  · rw [toZMod_neg, neg_sq]
  · rfl

/-- A square has one root that is not negative. -/
theorem eq_of_sq_eq (ha : isNegative a = false) (hb : isNegative b = false)
    (h : toZMod a ^ 2 = toZMod b ^ 2) : a = b := by
  rw [isNegative, beq_eq_false_iff_ne] at ha hb
  refine toZMod_injective (eq_of_sq_eq_sq h ?_)
  rw [val_toZMod, val_toZMod]
  omega

/-! ## Inverse roots -/

/-- The candidate for an inverse root, before signs are settled. -/
def inverseRoot (v : Field) : Field :=
  1 * (v * v * v) * Modular.pow (1 * (v * v * v * (v * v * v) * v)) ((fieldPrime - 5) / 8)

/-- How far the candidate is from an inverse root. -/
def inverseCheck (v : Field) : Field := v * (inverseRoot v * inverseRoot v)

theorem sqrtRatio_one (v : Field) : sqrtRatio 1 v =
    (inverseCheck v == 1 || inverseCheck v == -1,
      abs (if inverseCheck v == -1 || inverseCheck v == -(1 * sqrtMinusOne) then
        sqrtMinusOne * inverseRoot v else inverseRoot v)) := rfl

theorem toZMod_inverseCheck (v : Field) : toZMod (inverseCheck v) =
    toZMod v * toZMod (inverseRoot v) ^ 2 := by
  rw [inverseCheck, toZMod_mul, toZMod_mul, sq]

/-- The candidate is an inverse root of a square, up to a root of one or `-1`. -/
theorem inverseCheck_of_isSquare (hv : v ≠ 0) (h : IsSquare (toZMod v)) :
    inverseCheck v = 1 ∨ inverseCheck v = -1 := by
  obtain ⟨w, hw⟩ := h
  have hw0 : w ≠ 0 := by
    rintro rfl
    rw [mul_zero, toZMod_eq_zero] at hw
    exact hv hw
  -- Seven times Fermat's exponent is what the square of the check comes to.
  have hexponent : 28 + 56 * ((fieldPrime - 5) / 8) = (fieldPrime - 1) * 7 := by decide
  have hone : toZMod (inverseCheck v) * toZMod (inverseCheck v) = 1 := by
    calc toZMod (inverseCheck v) * toZMod (inverseCheck v)
        = w ^ (28 + 56 * ((fieldPrime - 5) / 8)) := by
          simp only [toZMod_inverseCheck, inverseRoot, toZMod_mul, toZMod_pow, toZMod_one, hw]
          ring
      _ = 1 := by rw [hexponent, pow_mul, ZMod.pow_card_sub_one_eq_one hw0, one_pow]
  rcases mul_self_eq_one_iff.1 hone with h | h
  · exact .inl (toZMod_eq_one.1 h)
  · exact .inr (toZMod_injective (by rw [h, toZMod_neg, toZMod_one]))

/-- The inverse root of a square that is not zero is found. -/
theorem sqrtRatio_one_of_isSquare (hv : v ≠ 0) (h : IsSquare (toZMod v)) :
    (sqrtRatio 1 v).1 = true := by
  rw [sqrtRatio_one]
  rcases inverseCheck_of_isSquare hv h with h | h
  · simp [h]
  · simp [h]

/-- What is found is an inverse root. -/
theorem sqrtRatio_one_spec (h : (sqrtRatio 1 v).1 = true) :
    toZMod (sqrtRatio 1 v).2 ^ 2 * toZMod v = 1 := by
  have hcheck := toZMod_inverseCheck v
  have hi := rootMinusOne_sq
  rw [rootMinusOne] at hi
  rw [sqrtRatio_one] at h ⊢
  simp only [Bool.or_eq_true, beq_iff_eq] at h
  rw [toZMod_abs_sq]
  rcases h with h | h
  · rw [h] at hcheck ⊢
    rw [if_neg (by decide +kernel)]
    rw [toZMod_one] at hcheck
    linear_combination -hcheck
  · rw [h] at hcheck ⊢
    rw [if_pos (by decide +kernel), toZMod_mul]
    rw [toZMod_neg, toZMod_one] at hcheck
    linear_combination toZMod (inverseRoot v) ^ 2 * toZMod v * hi + hcheck

/-- Zero has no inverse root. -/
theorem sqrtRatio_one_zero : (sqrtRatio 1 0).2 = 0 := by decide +kernel

end Field

end Ristretto

end PrivateMatching
