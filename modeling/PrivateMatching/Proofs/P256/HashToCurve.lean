import PrivateMatching.Proofs.P256.Compressed

/-!
# The map to P-256 ends on the curve

The right-hand side of the curve at the second candidate is that at the first
times `(mapZ * u ^ 2) ^ 3` (`curveValue_secondCandidate`). As `mapZ` is not a
square, the second candidate has a root if the first has none. So field elements
are mapped to the curve (`isOnCurve_mapToCurve`), and uniform bytes are
(`isOnCurve_ofUniform`).
-/

namespace PrivateMatching

namespace P256

open PrivateMatching.Modular

theorem not_isSquare_mapZ : ¬IsSquare (toZMod mapZ) := by
  rw [isSquare_iff (by decide)]
  decide +kernel

/-- Where the general formula for the first candidate does not apply, it is a
    fixed one, at which there is a root. -/
theorem isSquare_exceptional :
    IsSquare (toZMod (curveValue (mapQuotient * inv (-mapZ)))) := by
  rw [isSquare_iff (curveValue_ne_zero _)]
  decide +kernel

theorem three_mul_mapQuotient : 3 * toZMod mapQuotient = constB := by
  have h : 3 * mapQuotient = curveB := by decide +kernel
  rw [constB, ← h, toZMod_mul, toZMod_literal]

variable {u : Field}

/-- The first candidate of the general formula. -/
theorem firstCandidate_eq (hd : mapZ * (u * u) * (mapZ * (u * u)) + mapZ * (u * u) ≠ 0) :
    3 * toZMod (firstCandidate u) *
        ((toZMod mapZ * toZMod u ^ 2) ^ 2 + toZMod mapZ * toZMod u ^ 2) =
      constB * ((toZMod mapZ * toZMod u ^ 2) ^ 2 + toZMod mapZ * toZMod u ^ 2 + 1) := by
  have hne := toZMod_eq_zero.not.2 hd
  have hx : firstCandidate u =
      mapQuotient * (1 + inv (mapZ * (u * u) * (mapZ * (u * u)) + mapZ * (u * u))) := by
    rw [firstCandidate]
    exact if_neg hd
  simp only [toZMod_add, toZMod_mul] at hne
  rw [hx, ← three_mul_mapQuotient]
  simp only [toZMod_add, toZMod_mul, toZMod_one, toZMod_inv]
  linear_combination (3 * toZMod mapQuotient) * mul_inv_cancel₀ hne

/-- The right-hand side of the curve at the second candidate. -/
theorem curveValue_secondCandidate
    (hd : mapZ * (u * u) * (mapZ * (u * u)) + mapZ * (u * u) ≠ 0) :
    toZMod (curveValue (mapZ * (u * u) * firstCandidate u)) =
      (toZMod mapZ * toZMod u ^ 2) ^ 3 * toZMod (curveValue (firstCandidate u)) := by
  have hx := firstCandidate_eq hd
  simp only [toZMod_curveValue, toZMod_mul]
  linear_combination (toZMod mapZ * toZMod u ^ 2 - 1) * hx

/-- If there is no root at the first candidate, there is one at the second. -/
theorem isSquare_secondCandidate (h : ¬IsSquare (toZMod (curveValue (firstCandidate u)))) :
    IsSquare (toZMod (curveValue (mapZ * (u * u) * firstCandidate u))) := by
  by_cases hd : mapZ * (u * u) * (mapZ * (u * u)) + mapZ * (u * u) = 0
  · -- At the fixed candidate there is a root.
    refine absurd ?_ h
    have hx : firstCandidate u = mapQuotient * inv (-mapZ) := by
      rw [firstCandidate]
      exact if_pos hd
    rw [hx]
    exact isSquare_exceptional
  · -- The two values differ by the cube of a residue that is not a square.
    obtain ⟨r, hr⟩ := isSquare_mul not_isSquare_mapZ h
    refine ⟨toZMod mapZ * toZMod u ^ 3 * r, ?_⟩
    rw [curveValue_secondCandidate hd]
    linear_combination (toZMod mapZ ^ 2 * toZMod u ^ 6) * hr

/-- Field elements are mapped to the curve. -/
theorem isOnCurve_mapToCurve (u : Field) : (mapToCurve u).isOnCurve = true := by
  cases h : Field.sqrt? (curveValue (firstCandidate u)) with
  | some y =>
    have hroot : y * y = curveValue (firstCandidate u) := Field.sq_of_sqrt? h
    rw [mapToCurve, h, Option.elim, Point.isOnCurve, Field.withParity_sq, hroot,
      beq_self_eq_true]
  | none =>
    have hsquare := isSquare_secondCandidate (Field.not_isSquare_of_sqrt? h)
    have hroot := Field.rootCandidate_sq hsquare
    rw [mapToCurve, h, Option.elim, Point.isOnCurve, Field.withParity_sq, hroot,
      beq_self_eq_true]

/-- Uniform bytes are mapped to the curve. -/
theorem isOnCurve_ofUniform (bytes : Bytes) : (ofUniform bytes).isOnCurve = true :=
  Point.isOnCurve_add (isOnCurve_mapToCurve _) (isOnCurve_mapToCurve _)

/-- Inputs are hashed to the curve. -/
theorem isOnCurve_of_hash {inputs tags : List Bytes} {p : Point} (h : hash inputs tags = .ok p) :
    p.isOnCurve = true := by
  rw [hash] at h
  split at h
  · cases h
  · rw [← Except.ok.inj h]
    exact isOnCurve_ofUniform _

end P256

end PrivateMatching
