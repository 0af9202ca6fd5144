/-!
# Repeated squaring

`power` raises a value to a natural exponent by reading the exponent bit by bit,
lowest first, squaring as it goes. It is stated for any multiplication, with
squaring passed beside it, as a curve has a cheaper rule for doubling a point
than for adding two.

`Modular` has the powers of residues, and through them the inverse modulo a
prime, `a ^ (m - 2)`.
-/

namespace PrivateMatching

/-- Multiplies `acc` by `base` raised to the number that the low `bits` bits of
    `exponent` denote. -/
@[specialize] def powerLoop (mul : α → α → α) (square : α → α) :
    (bits : Nat) → (acc base : α) → (exponent : Nat) → α
  | 0, acc, _, _ => acc
  | bits + 1, acc, base, exponent =>
    powerLoop mul square bits (if exponent % 2 = 1 then mul acc base else acc) (square base)
      (exponent / 2)

/-- The value `base` raised to `exponent`, `one` being the empty product. -/
@[specialize] def power (one : α) (mul : α → α → α) (square : α → α) (base : α)
    (exponent : Nat) : α :=
  powerLoop mul square (exponent.log2 + 1) one base exponent

/-- What multiplication and squaring keep, a power keeps. -/
theorem powerLoop_induction {mul : α → α → α} {square : α → α} {P : α → Prop}
    (hmul : ∀ a b, P a → P b → P (mul a b)) (hsquare : ∀ a, P a → P (square a)) (bits : Nat)
    {acc base : α} (hacc : P acc) (hbase : P base) (exponent : Nat) :
    P (powerLoop mul square bits acc base exponent) := by
  induction bits generalizing acc base exponent with
  | zero => exact hacc
  | succ bits ih =>
    rw [powerLoop]
    apply ih _ (hsquare _ hbase)
    split
    · exact hmul _ _ hacc hbase
    · exact hacc

theorem power_induction {one : α} {mul : α → α → α} {square : α → α} {P : α → Prop}
    (hone : P one) (hmul : ∀ a b, P a → P b → P (mul a b)) (hsquare : ∀ a, P a → P (square a))
    {base : α} (hbase : P base) (exponent : Nat) : P (power one mul square base exponent) :=
  powerLoop_induction hmul hsquare _ hone hbase exponent

namespace Modular

/-- A residue raised to an exponent. -/
def pow {m : Nat} (a : Fin m) (exponent : Nat) : Fin m :=
  power ⟨1 % m, Nat.mod_lt _ (Nat.lt_of_le_of_lt (Nat.zero_le _) a.isLt)⟩ (· * ·)
    (fun x => x * x) a exponent

/-- The inverse of a residue modulo a prime; the inverse of zero is zero. -/
def inv {m : Nat} (a : Fin m) : Fin m := pow a (m - 2)

end Modular

end PrivateMatching
