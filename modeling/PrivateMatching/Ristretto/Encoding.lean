import PrivateMatching.Bytes
import PrivateMatching.Failure
import PrivateMatching.Ristretto.Point

/-!
# Encoded elements of ristretto255

An element travels as 32 bytes, least significant first: one number below the
prime and not negative for each class of points. The identity is written as
zeros, and never read.
-/

namespace PrivateMatching

namespace Ristretto

/-- The inverse root of `-1 - d`. -/
def inverseRootMinusD : Field :=
  0x786c8905cfaffca216c27b91fe01d8409d2f16175a4172be99c8fdaa805d40ea

namespace Point

/-- The number of bytes of an encoded element. -/
def width : Nat := 32

/-- The number that stands for the class of a point. -/
def canonical (p : Point) : Field :=
  let u₁ := (p.z + p.y) * (p.z - p.y)
  let u₂ := p.x * p.y
  let root := (Field.sqrtRatio 1 (u₁ * (u₂ * u₂))).2
  let den₁ := root * u₁
  let den₂ := root * u₂
  let zInv := den₁ * den₂ * p.t
  let rotate := Field.isNegative (p.t * zInv)
  let x := if rotate then p.y * Field.sqrtMinusOne else p.x
  let y := if rotate then p.x * Field.sqrtMinusOne else p.y
  let den := if rotate then den₁ * inverseRootMinusD else den₂
  let y := if Field.isNegative (x * zInv) then -y else y
  Field.abs (den * (p.z - y))

/-- The encoding of the class of a point. -/
def encode (p : Point) : Bytes := Bytes.ofNatLE width p.canonical.val

/-- The point that a number stands for. -/
def ofCanonical? (s : Field) : Option Point :=
  let ss := s * s
  let u₁ := 1 - ss
  let u₂ := 1 + ss
  let u₂u₂ := u₂ * u₂
  let v := -(curveD * (u₁ * u₁)) - u₂u₂
  let (wasSquare, root) := Field.sqrtRatio 1 (v * u₂u₂)
  let denX := root * u₂
  let denY := root * denX * v
  let x := Field.abs (2 * s * denX)
  let y := u₁ * denY
  let t := x * y
  if !wasSquare || Field.isNegative t || y == 0 then none else some ⟨x, y, 1, t⟩

/-- The point of a value, which has to be below the prime and not negative. -/
def ofValue? (n : Nat) : Option Point :=
  if h : n < fieldPrime then
    if Field.isNegative ⟨n, h⟩ then none else ofCanonical? ⟨n, h⟩
  else
    none

/-- Reads an element: the width is checked first, and whether it is the identity
    last. -/
def decode (bytes : Bytes) : Except EncodingFault Point :=
  if bytes.length ≠ width then
    .error (.wrongLength width bytes.length)
  else
    match ofValue? (Bytes.toNatLE bytes) with
    | none => .error .malformed
    | some p => if p.isIdentity then .error .identity else .ok p

end Point

end Ristretto

end PrivateMatching
