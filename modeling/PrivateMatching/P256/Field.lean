import PrivateMatching.Power

/-!
# The field of P-256

The residues modulo the 256-bit prime over which the curve is defined. As the
prime is three modulo four, a square has its roots at a fixed power:
`Field.sqrt?` takes that power and checks it.
-/

namespace PrivateMatching

namespace P256

/-- The prime of the field. -/
def fieldPrime : Nat := 0xffffffff00000001000000000000000000000000ffffffffffffffffffffffff

instance : @NeZero Nat Zero.ofOfNat0 fieldPrime := ⟨by decide⟩

/-- An element of the field. -/
abbrev Field := Fin fieldPrime

namespace Field

/-- The power that is a root of `a`, if `a` is a square. -/
def rootCandidate (a : Field) : Field := Modular.pow a ((fieldPrime + 1) / 4)

/-- A root of `a`, if it is a square. -/
def sqrt? (a : Field) : Option Field :=
  let root := rootCandidate a
  if root * root = a then some root else none

/-- The parity of the least representative. -/
def isOdd (a : Field) : Bool := a.val % 2 == 1

/-- The one of `a` and `-a` that has a parity, if they differ in it. -/
def withParity (odd : Bool) (a : Field) : Field := if isOdd a = odd then a else -a

end Field

end P256

end PrivateMatching
