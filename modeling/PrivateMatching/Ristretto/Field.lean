import PrivateMatching.Power

/-!
# The field of ristretto255

The residues modulo `2 ^ 255 - 19`. A residue is negative if its least
representative is odd. As the prime is five modulo eight, roots are taken at a
fixed power, up to a root of `-1`.
-/

namespace PrivateMatching

namespace Ristretto

/-- The prime of the field. -/
def fieldPrime : Nat := 0x7fffffffffffffffffffffffffffffffffffffffffffffffffffffffffffffed

instance : @NeZero Nat Zero.ofOfNat0 fieldPrime := ⟨by decide⟩

/-- An element of the field. -/
abbrev Field := Fin fieldPrime

namespace Field

/-- A root of `-1`. -/
def sqrtMinusOne : Field := 0x2b8324804fc1df0b2b4d00993dfbd7a72f431806ad2fe478c4ee1b274a0ea0b0

/-- Whether a residue is negative. -/
def isNegative (a : Field) : Bool := a.val % 2 == 1

/-- The one of `a` and `-a` that is not negative. -/
def abs (a : Field) : Field := if isNegative a then -a else a

/-- Whether `u / v` is a square, and its root that is not negative; if it is no
    square, the root of `u / v` times the root of `-1`. For `v = 0` the root is
    zero. -/
def sqrtRatio (u v : Field) : Bool × Field :=
  let v3 := v * v * v
  let v7 := v3 * v3 * v
  let root := u * v3 * Modular.pow (u * v7) ((fieldPrime - 5) / 8)
  let check := v * (root * root)
  let correct : Bool := check == u
  let flipped : Bool := check == -u
  let flippedTwice : Bool := check == -(u * sqrtMinusOne)
  let root := if flipped || flippedTwice then sqrtMinusOne * root else root
  (correct || flipped, abs root)

end Field

end Ristretto

end PrivateMatching
