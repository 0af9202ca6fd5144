import Mathlib.GroupTheory.OrderOfElement
import PrivateMatching.Proofs.Power
import PrivateMatching.Suite

/-!
# Suites as groups

The elements of a suite are representations, and some of them may be junk. A
*reading* of a suite in a commutative group says which representations are sound
and which element of the group each stands for, such that the operations of the
suite are those of the group (`Suite.Reading`). The values of sound
representations are roots of one to the order of the suite. So if the order is
prime, an exponent matters modulo the order only (`pow_eq_pow_iff`), and raising
to an exponent that is not zero takes different elements to different elements
(`pow_injective`).

A reading is *canonical* if every value other than one has a single encoding,
which is read back, and the strings that are read are those encodings.
-/

namespace PrivateMatching

namespace Suite

/-- A suite read in a commutative group. -/
structure Reading (C : Suite) (G : Type*) [CommGroup G] where
  /-- The representations that stand for an element of the group. -/
  Sound : C.Element → Prop
  /-- The element of the group that a representation stands for. -/
  value : C.Element → G
  value_pow_order : ∀ {x}, Sound x → value x ^ C.order = 1
  sound_one : Sound C.one
  value_one : value C.one = 1
  sound_generator : Sound C.generator
  sound_mul : ∀ {x y}, Sound x → Sound y → Sound (C.mul x y)
  value_mul : ∀ {x y}, Sound x → Sound y → value (C.mul x y) = value x * value y
  sound_exp : ∀ {x}, Sound x → ∀ s, Sound (C.exp x s)
  value_exp : ∀ {x}, Sound x → ∀ s, value (C.exp x s) = value x ^ s.val
  equal_iff : ∀ {x y}, Sound x → Sound y → (C.equal x y = true ↔ value x = value y)
  isIdentity_iff : ∀ {x}, Sound x → (C.isIdentity x = true ↔ value x = 1)
  sound_of_decode : ∀ {bytes x}, C.decode bytes = .ok x → Sound x
  value_ne_one_of_decode : ∀ {bytes x}, C.decode bytes = .ok x → value x ≠ 1

namespace Reading

/-- Every value other than one has one encoding, which is the one that is read. -/
structure IsCanonical {C : Suite} {G : Type*} [CommGroup G] (R : C.Reading G) : Prop where
  encode_congr : ∀ {x y}, R.Sound x → R.Sound y → R.value x = R.value y → C.encode x = C.encode y
  encode_of_decode : ∀ {bytes x}, C.decode bytes = .ok x → C.encode x = bytes
  decode_encode : ∀ {x}, R.Sound x → R.value x ≠ 1 →
    ∃ y, C.decode (C.encode x) = .ok y ∧ R.value y = R.value x

variable {C : Suite} {G : Type*} [CommGroup G] (R : C.Reading G) [Fact C.order.Prime]
  {x y : C.Element}

/-- Powers of a value other than one are told apart by their exponents modulo the
    order. -/
theorem pow_eq_pow_iff (hx : R.Sound x) (hone : R.value x ≠ 1) {m n : ℕ} :
    R.value x ^ m = R.value x ^ n ↔ (m : ZMod C.order) = n := by
  have horder : orderOf (R.value x) = C.order := orderOf_eq_prime (R.value_pow_order hx) hone
  rw [pow_eq_pow_iff_modEq, horder, ZMod.natCast_eq_natCast_iff]

/-- Exponents that agree modulo the order have the same power. -/
theorem pow_congr (hx : R.Sound x) {m n : ℕ} (h : (m : ZMod C.order) = n) :
    R.value x ^ m = R.value x ^ n := by
  by_cases hone : R.value x = 1
  · rw [hone, one_pow, one_pow]
  · exact (R.pow_eq_pow_iff hx hone).2 h

/-- Only the identity has a power that is one, for an exponent that is not zero. -/
theorem pow_eq_one_iff (hx : R.Sound x) {n : ℕ} (hn : (n : ZMod C.order) ≠ 0) :
    R.value x ^ n = 1 ↔ R.value x = 1 := by
  refine ⟨fun h => ?_, fun h => by rw [h, one_pow]⟩
  by_contra hone
  rw [← pow_zero (R.value x), R.pow_eq_pow_iff hx hone, Nat.cast_zero] at h
  exact hn h

/-- No exponent that is not zero takes an element to the identity, except the
    identity. -/
theorem value_exp_ne_one (hx : R.Sound x) (hone : R.value x ≠ 1) {e : Scalar C.order}
    (he : Modular.toZMod e ≠ 0) : R.value (C.exp x e) ≠ 1 := by
  rw [R.value_exp hx, Ne, R.pow_eq_one_iff hx he]
  exact hone

/-- Raising to an exponent that is not zero takes different elements to different
    elements. -/
theorem pow_injective (hx : R.Sound x) (hy : R.Sound y) {n : ℕ} (hn : (n : ZMod C.order) ≠ 0)
    (h : R.value x ^ n = R.value y ^ n) : R.value x = R.value y := by
  -- The inverse of the exponent modulo the order takes both powers back.
  have hcast : ((n * ((n : ZMod C.order)⁻¹).val : ℕ) : ZMod C.order) = (1 : ℕ) := by
    rw [Nat.cast_mul, ZMod.natCast_zmod_val, mul_inv_cancel₀ hn, Nat.cast_one]
  have hback : ∀ {z}, R.Sound z → (R.value z ^ n) ^ ((n : ZMod C.order)⁻¹).val = R.value z := by
    intro z hz
    rw [← pow_mul, R.pow_congr hz hcast, pow_one]
  rw [← hback hx, h, hback hy]

end Reading

/-- A suite is a group of prime order with canonical encodings. -/
structure IsLawful (C : Suite) : Prop where
  prime_order : C.order.Prime
  two_lt_order : 2 < C.order
  exists_reading : ∃ (G : Type) (_ : CommGroup G) (R : C.Reading G), R.IsCanonical

end Suite

end PrivateMatching
