import PrivateMatching.Bytes
import PrivateMatching.P256.Point

/-!
# Mapping to P-256

Field elements are mapped to the curve by the simplified SWU map. There are two
candidates for `x`, and the right-hand side of the equation at the second is that
at the first times `(mapZ * u ^ 2) ^ 3`. As `mapZ` is not a square, one of the two
right-hand sides is. Uniform bytes are mapped to the sum of the points of two
field elements.
-/

namespace PrivateMatching

namespace P256

/-- The non-square of the map. -/
def mapZ : Field := -10

/-- The quotient of the coefficients of the curve, `b / 3`. -/
def mapQuotient : Field := curveB * Modular.inv 3

/-- The first candidate for `x`. -/
def firstCandidate (u : Field) : Field :=
  let zu := mapZ * (u * u)
  let d := zu * zu + zu
  if d = 0 then
    mapQuotient * Modular.inv (-mapZ)
  else
    mapQuotient * (1 + Modular.inv d)

/-- The point of a field element. -/
def mapToCurve (u : Field) : Point :=
  let x₁ := firstCandidate u
  let x₂ := mapZ * (u * u) * x₁
  (Field.sqrt? (curveValue x₁)).elim
    (.affine x₂ (Field.withParity (Field.isOdd u) (Field.rootCandidate (curveValue x₂))))
    fun y => .affine x₁ (Field.withParity (Field.isOdd u) y)

/-- The number of uniform bytes behind a field element. -/
def elementBytes : Nat := 48

/-- The point of uniform bytes, the sum of the points of two field elements. -/
def ofUniform (bytes : Bytes) : Point :=
  let u := Fin.ofNat fieldPrime (Bytes.toNatBE (bytes.take elementBytes))
  let v := Fin.ofNat fieldPrime (Bytes.toNatBE ((bytes.drop elementBytes).take elementBytes))
  (mapToCurve u).add (mapToCurve v)

end P256

end PrivateMatching
