import PrivateMatching.Bytes
import PrivateMatching.Failure
import PrivateMatching.P256.Point

/-!
# Compressed points

A point travels as 33 bytes: a tag that tells the parity of `y`, and `x`, most
significant byte first. The identity is written as zeros, and never read.
-/

namespace PrivateMatching

namespace P256

namespace Point

/-- The number of bytes of a compressed point. -/
def width : Nat := 33

/-- The tag of a parity. -/
def parityTag (odd : Bool) : UInt8 := if odd then 3 else 2

/-- The parity of a tag. -/
def tagParity? (tag : UInt8) : Option Bool :=
  if tag = 2 then some false else if tag = 3 then some true else none

/-- The compressed form of a point. -/
def encode : Point → Bytes
  | .infinity => List.replicate width 0
  | .affine x y => parityTag (Field.isOdd y) :: Bytes.ofNatBE 32 x.val

/-- The point of the curve with a first coordinate and a parity. -/
def lift? (odd : Bool) (x : Nat) : Option Point :=
  if h : x < fieldPrime then
    (Field.sqrt? (curveValue ⟨x, h⟩)).map fun y => .affine ⟨x, h⟩ (Field.withParity odd y)
  else
    none

/-- The point of a tag and a first coordinate. -/
def ofCompressed? : Bytes → Option Point
  | [] => none
  | tag :: x => (tagParity? tag).bind fun odd => lift? odd (Bytes.toNatBE x)

/-- Reads a compressed point: the width is checked first, then whether it is the
    identity. What a tag and a first coordinate give is a point with coordinates, so
    it is not checked for the identity again (`Point.ne_infinity_of_decode`). -/
def decode (bytes : Bytes) : Except EncodingFault Point :=
  if bytes.length ≠ width then
    .error (.wrongLength width bytes.length)
  else if bytes.all (· == 0) then
    .error .identity
  else
    match ofCompressed? bytes with
    | none => .error .malformed
    | some p => .ok p

end Point

end P256

end PrivateMatching
