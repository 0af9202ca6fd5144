import PrivateMatching.Ristretto.Field

/-!
# Points behind ristretto255

The curve is `-x ^ 2 + y ^ 2 = 1 + d * x ^ 2 * y ^ 2`, in extended coordinates:
`(x, y, z, t)` stands for `(x / z, y / z)`, with `x * y = z * t`. An element of
the group is a class of four points; `Point.equal` tells whether two points are
in one class.
-/

namespace PrivateMatching

namespace Ristretto

/-- The constant of the curve. -/
def curveD : Field := 0x52036cee2b6ffe738cc740797779e89800700a4d4141d8ab75eb4dca135978a3

/-- A point in extended coordinates. -/
structure Point where
  /-- The first coordinate, to be divided by `z`. -/
  x : Field
  /-- The second coordinate, to be divided by `z`. -/
  y : Field
  /-- The denominator. -/
  z : Field
  /-- The product of the coordinates, to be divided by `z`. -/
  t : Field
  deriving DecidableEq

namespace Point

/-- The identity. -/
def identity : Point := ⟨0, 1, 1, 0⟩

/-- The affine point with some coordinates. -/
def ofAffine (x y : Field) : Point := ⟨x, y, 1, x * y⟩

/-- The base point. -/
def generator : Point :=
  ofAffine 0x216936d3cd6e53fec0a4e231fdd6dc5c692cc7609525a7b2c9562d608f25d51a
    0x6666666666666666666666666666666666666666666666666666666666666658

/-- The point of the four factors that sums and doubles end with. -/
def ofFactors (e f g h : Field) : Point := ⟨e * f, g * h, f * g, e * h⟩

/-- The sum of two points. -/
def add (p q : Point) : Point :=
  let a := (p.y - p.x) * (q.y - q.x)
  let b := (p.y + p.x) * (q.y + q.x)
  let c := 2 * curveD * (p.t * q.t)
  let d := 2 * (p.z * q.z)
  ofFactors (b - a) (d - c) (d + c) (b + a)

/-- The double of a point. -/
def double (p : Point) : Point :=
  let a := p.x * p.x
  let b := p.y * p.y
  let s := p.x + p.y
  let g := b - a
  ofFactors (s * s - a - b) (g - 2 * (p.z * p.z)) g (-a - b)

/-- The multiple of a point. -/
def smul (n : Nat) (p : Point) : Point := power identity add double p n

/-- Whether two points are in one class. -/
def equal (p q : Point) : Bool := p.x * q.y == p.y * q.x || p.y * q.y == p.x * q.x

/-- Whether a point is in the class of the identity. -/
def isIdentity (p : Point) : Bool := p.equal identity

end Point

end Ristretto

end PrivateMatching
