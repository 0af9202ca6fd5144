import Mathlib.Data.ZMod.Basic
import Mathlib.FieldTheory.Finite.Basic
import PrivateMatching.Power

/-!
# What repeated squaring computes

`power` is the power of a monoid, for any reading of its values in a monoid that
turns the multiplication into the product (`map_power`). The reading may be good
for some values only, as long as multiplying does not leave them.

Residues are read in `ZMod m` (`Modular.toZMod`), where the arithmetic of
`Fin m` is that of a ring, and of a field if `m` is prime: `Modular.pow` is the
power (`Modular.toZMod_pow`) and `Modular.inv` the inverse
(`Modular.toZMod_inv`).
-/

namespace PrivateMatching

/-- The lowest bit of an exponent is a factor, and the bits behind it are those of its
    half. -/
theorem pow_eq_pow_mod_two_mul {M : Type*} [Monoid M] (a : M) (n : ℕ) :
    a ^ n = a ^ (n % 2) * (a * a) ^ (n / 2) := by
  rw [← sq, ← pow_mul, ← pow_add, Nat.mod_add_div]

section Reading

variable {α M : Type*} [Monoid M] {one : α} {mul : α → α → α} {square : α → α} {P : α → Prop}
  {f : α → M}

/-- The loop multiplies by the power, once it has as many rounds as the exponent
    has bits. -/
theorem map_powerLoop (hmul : ∀ a b, P a → P b → P (mul a b) ∧ f (mul a b) = f a * f b)
    (hsquare : ∀ a, P a → P (square a) ∧ f (square a) = f a * f a) (bits : ℕ) {acc base : α}
    (hacc : P acc) (hbase : P base) {exponent : ℕ} (h : exponent < 2 ^ bits) :
    f (powerLoop mul square bits acc base exponent) = f acc * f base ^ exponent := by
  induction bits generalizing acc base exponent with
  | zero =>
    obtain rfl : exponent = 0 := by simpa using h
    rw [powerLoop, pow_zero, mul_one]
  | succ bits ih =>
    have hhalf : exponent / 2 < 2 ^ bits := by
      rw [pow_succ] at h
      omega
    rw [powerLoop, pow_eq_pow_mod_two_mul, ← mul_assoc]
    split
    · rename_i hodd
      rw [ih (hmul _ _ hacc hbase).1 (hsquare _ hbase).1 hhalf, (hmul _ _ hacc hbase).2,
        (hsquare _ hbase).2, hodd, pow_one]
    · rename_i heven
      rw [ih hacc (hsquare _ hbase).1 hhalf, (hsquare _ hbase).2,
        Nat.mod_two_ne_one.1 heven, pow_zero, mul_one]

/-- Repeated squaring is the power of the monoid. -/
theorem map_power (hone : P one ∧ f one = 1)
    (hmul : ∀ a b, P a → P b → P (mul a b) ∧ f (mul a b) = f a * f b)
    (hsquare : ∀ a, P a → P (square a) ∧ f (square a) = f a * f a) {base : α} (hbase : P base)
    (exponent : ℕ) : f (power one mul square base exponent) = f base ^ exponent := by
  rw [power, map_powerLoop hmul hsquare _ hone.1 hbase Nat.lt_log2_self, hone.2, one_mul]

end Reading

namespace Modular

variable {m : ℕ}

/-- A residue as an integer modulo `m`. -/
def toZMod (a : Fin m) : ZMod m := (a.val : ZMod m)

theorem val_toZMod (a : Fin m) : (toZMod a).val = a.val := ZMod.val_cast_of_lt a.isLt

/-- Residues are told apart by the integers modulo `m`. -/
theorem toZMod_injective : Function.Injective (toZMod : Fin m → ZMod m) := fun a b h =>
  Fin.ext <| by rw [← val_toZMod a, ← val_toZMod b, h]

theorem toZMod_surjective [NeZero m] : Function.Surjective (toZMod : Fin m → ZMod m) := fun a =>
  ⟨⟨a.val, ZMod.val_lt a⟩, ZMod.natCast_zmod_val a⟩

@[simp] theorem toZMod_inj {a b : Fin m} : toZMod a = toZMod b ↔ a = b :=
  toZMod_injective.eq_iff

@[simp] theorem toZMod_mk (n : ℕ) (h : n < m) : toZMod ⟨n, h⟩ = n := rfl

@[simp] theorem toZMod_add (a b : Fin m) : toZMod (a + b) = toZMod a + toZMod b := by
  rw [toZMod, Fin.val_add, ZMod.natCast_mod, Nat.cast_add, toZMod, toZMod]

@[simp] theorem toZMod_mul (a b : Fin m) : toZMod (a * b) = toZMod a * toZMod b := by
  rw [toZMod, Fin.val_mul, ZMod.natCast_mod, Nat.cast_mul, toZMod, toZMod]

@[simp] theorem toZMod_sub (a b : Fin m) : toZMod (a - b) = toZMod a - toZMod b := by
  rw [toZMod, Fin.sub_def, ZMod.natCast_mod, Nat.cast_add, Nat.cast_sub b.isLt.le,
    ZMod.natCast_self, toZMod, toZMod]
  ring

@[simp] theorem toZMod_neg (a : Fin m) : toZMod (-a) = -toZMod a := by
  rw [toZMod, Fin.val_neg', ZMod.natCast_mod, Nat.cast_sub a.isLt.le, ZMod.natCast_self, toZMod,
    zero_sub]

section Literals

variable [NeZero m]

@[simp] theorem toZMod_zero : toZMod (0 : Fin m) = 0 := by
  rw [toZMod, Fin.val_zero, Nat.cast_zero]

@[simp] theorem toZMod_ofNat (n : ℕ) : toZMod (Fin.ofNat m n) = n := by
  rw [toZMod, Fin.val_ofNat, ZMod.natCast_mod]

@[simp] theorem toZMod_one : toZMod (1 : Fin m) = 1 := (toZMod_ofNat 1).trans Nat.cast_one

@[simp] theorem toZMod_literal (n : ℕ) [n.AtLeastTwo] :
    toZMod (ofNat(n) : Fin m) = OfNat.ofNat n := toZMod_ofNat n

theorem toZMod_eq_zero {a : Fin m} : toZMod a = 0 ↔ a = 0 := by rw [← toZMod_zero, toZMod_inj]

theorem toZMod_eq_one {a : Fin m} : toZMod a = 1 ↔ a = 1 := by rw [← toZMod_one, toZMod_inj]

end Literals

/-- Powers of residues are those of the integers modulo `m`. -/
@[simp] theorem toZMod_pow (a : Fin m) (n : ℕ) : toZMod (pow a n) = toZMod a ^ n := by
  refine map_power (P := fun _ => True) ⟨trivial, ?_⟩ (fun a b _ _ => ⟨trivial, toZMod_mul a b⟩)
    (fun a _ => ⟨trivial, toZMod_mul a a⟩) trivial n
  rw [toZMod_mk, ZMod.natCast_mod, Nat.cast_one]

/-- The least representative of a power. -/
theorem val_pow (a : Fin m) (n : ℕ) : (pow a n).val = a.val ^ n % m := by
  rw [← val_toZMod, toZMod_pow, toZMod, ← Nat.cast_pow, ZMod.val_natCast]

/-- A power of a power, for exponents modulo a number that gives one. -/
theorem pow_val_mul {M : Type*} [Monoid M] {n : ℕ} {g : M} (hg : g ^ n = 1) (a b : ZMod n) :
    (g ^ a.val) ^ b.val = g ^ (a * b).val := by
  rw [← pow_mul, ZMod.val_mul, ← pow_eq_pow_mod _ hg]

variable [Fact m.Prime] [Fact (2 < m)]

/-- Inverses of residues are those of the field, that of zero being zero. -/
@[simp] theorem toZMod_inv (a : Fin m) : toZMod (inv a) = (toZMod a)⁻¹ := by
  have hm : 2 < m := Fact.out
  rw [inv, toZMod_pow]
  by_cases h : toZMod a = 0
  · rw [h, inv_zero, zero_pow (by omega)]
  · refine eq_inv_of_mul_eq_one_left ?_
    rw [← pow_succ, show m - 2 + 1 = m - 1 by omega, ZMod.pow_card_sub_one_eq_one h]

end Modular

end PrivateMatching
