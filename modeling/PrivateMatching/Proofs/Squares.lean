import Mathlib.NumberTheory.LegendreSymbol.Basic
import PrivateMatching.Proofs.Power

/-!
# Squares and signs modulo a prime

Whether a residue is a square is told by one power (`Modular.isSquare_iff`), and
of two that are not, the product is (`Modular.isSquare_mul`). A residue and its
negative have different parities, unless they are zero
(`Modular.neg_mod_two`).
-/

namespace PrivateMatching

namespace Modular

variable {m : ℕ} [Fact m.Prime]

/-- Euler's criterion. -/
theorem isSquare_iff [NeZero m] {a : Fin m} (ha : a ≠ 0) :
    IsSquare (toZMod a) ↔ pow a (m / 2) = 1 := by
  rw [ZMod.euler_criterion m (toZMod_eq_zero.not.2 ha), ← toZMod_pow, toZMod_eq_one]

/-- The product of two residues that are not squares is a square. -/
theorem isSquare_mul {a b : ZMod m} (ha : ¬IsSquare a) (hb : ¬IsSquare b) : IsSquare (a * b) := by
  have ha0 : a ≠ 0 := fun h => ha (h ▸ IsSquare.zero)
  have hb0 : b ≠ 0 := fun h => hb (h ▸ IsSquare.zero)
  have ha1 : a ^ (m / 2) = -1 :=
    (ZMod.pow_div_two_eq_neg_one_or_one m ha0).resolve_left ((ZMod.euler_criterion m ha0).not.1 ha)
  have hb1 : b ^ (m / 2) = -1 :=
    (ZMod.pow_div_two_eq_neg_one_or_one m hb0).resolve_left ((ZMod.euler_criterion m hb0).not.1 hb)
  rw [ZMod.euler_criterion m (mul_ne_zero ha0 hb0), mul_pow, ha1, hb1, neg_mul_neg, one_mul]

/-- Modulo a number above two, two is not zero. -/
instance neZero_two [Fact (2 < m)] : NeZero (2 : ZMod m) where
  out := by
    intro h
    refine ZMod.neg_one_ne_one (n := m) ?_
    rw [neg_eq_iff_add_eq_zero, one_add_one_eq_two, h]

/-- The negative of a residue that is not zero has the other parity. -/
theorem neg_mod_two [NeZero m] [Fact (2 < m)] {a : Fin m} (ha : a ≠ 0) :
    (-a).val % 2 = 1 - a.val % 2 := by
  have hm : 2 < m := Fact.out
  have hodd : m % 2 = 1 := (Fact.out : m.Prime).eq_two_or_odd.resolve_left hm.ne'
  have hval : a.val ≠ 0 := fun h => ha (Fin.ext h)
  have hlt := a.isLt
  have hneg : m - a.val < m := by omega
  -- The two representatives add up to the modulus, which is odd.
  rw [Fin.val_neg', Nat.mod_eq_of_lt hneg]
  omega

/-- Roots of one square that have one parity are equal. -/
theorem eq_of_sq_eq_sq [Fact (2 < m)] {a b : ZMod m} (h : a ^ 2 = b ^ 2)
    (hparity : a.val % 2 = b.val % 2) : a = b := by
  have hm : m ≠ 0 := (Fact.out : m.Prime).ne_zero
  have : NeZero m := ⟨hm⟩
  obtain ⟨a, rfl⟩ := toZMod_surjective a
  obtain ⟨b, rfl⟩ := toZMod_surjective b
  rw [val_toZMod, val_toZMod] at hparity
  rcases sq_eq_sq_iff_eq_or_eq_neg.1 h with hab | hab
  · exact hab
  · rw [← toZMod_neg, toZMod_inj] at hab
    by_cases hb : b = 0
    · rw [hab, hb, toZMod_neg, toZMod_zero, neg_zero]
    · have := neg_mod_two hb
      rw [← hab] at this
      omega

end Modular

end PrivateMatching
