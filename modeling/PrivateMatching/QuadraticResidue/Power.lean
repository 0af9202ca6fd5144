/-!
# Modular powers in machine words

`modPow` raises a 32-bit base to a 32-bit exponent modulo a 32-bit modulus by
repeated squaring. The intermediate values are 64-bit words: a product of two
values below the modulus is smaller than 2 ^ 64, so nothing is lost.
-/

namespace PrivateMatching

namespace QuadraticResidue

/-- The loop of `modPow`: multiplies `acc` by `base` raised to `exponent`, modulo
    `m`. An exponent of `bits` bits is used up when the loop ends. -/
def modPowLoop (m : UInt64) : (bits : Nat) → (acc base : UInt64) → (exponent : UInt32) → UInt64
  | 0, acc, _, _ => acc
  | bits + 1, acc, base, exponent =>
    if exponent = 0 then
      acc
    else
      modPowLoop m bits (if exponent &&& 1 = 1 then acc * base % m else acc) (base * base % m)
        (exponent >>> 1)

/-- The base raised to the exponent, modulo the modulus. -/
def modPow (base exponent modulus : UInt32) : UInt32 :=
  let m := modulus.toUInt64
  (modPowLoop m 32 1 (base.toUInt64 % m) exponent).toUInt32

end QuadraticResidue

end PrivateMatching
