import PrivateMatching.Bytes
import PrivateMatching.Ristretto.Point

/-!
# Mapping to ristretto255

Uniform bytes are mapped to the sum of the points of two field elements, each
read from 32 bytes without the topmost bit.
-/

namespace PrivateMatching

namespace Ristretto

/-- The value `1 - d ^ 2`. -/
def oneMinusDSquared : Field := 1 - curveD * curveD

/-- The value `(d - 1) ^ 2`. -/
def dMinusOneSquared : Field := (curveD - 1) * (curveD - 1)

/-- A root of `-d - 1`. -/
def rootMinusD : Field := 0x376931bf2b8348ac0f3cfcc931f5d1fdaf9d8e0c1b7854bd7e97f6a0497b2e1b

/-- The point of a field element. -/
def mapToPoint (t : Field) : Point :=
  let r := Field.sqrtMinusOne * (t * t)
  let u := (r + 1) * oneMinusDSquared
  let v := (-1 - r * curveD) * (r + curveD)
  let (wasSquare, root) := Field.sqrtRatio u v
  let s := if wasSquare then root else -Field.abs (root * t)
  let c := if wasSquare then -1 else r
  let n := c * (r - 1) * dMinusOneSquared - v
  Point.ofFactors (2 * s * v) (1 + s * s) (n * rootMinusD) (1 - s * s)

/-- The number of uniform bytes behind a field element. -/
def elementBytes : Nat := 32

/-- The field element of uniform bytes. -/
def fieldOfBytes (bytes : Bytes) : Field :=
  Fin.ofNat fieldPrime (Bytes.toNatLE bytes % (1 <<< 255))

/-- The point of uniform bytes, the sum of the points of two field elements. -/
def ofUniform (bytes : Bytes) : Point :=
  (mapToPoint (fieldOfBytes (bytes.take elementBytes))).add
    (mapToPoint (fieldOfBytes ((bytes.drop elementBytes).take elementBytes)))

end Ristretto

end PrivateMatching
