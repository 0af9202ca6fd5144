import PrivateMatching.P256.Field

/-!
# Points of P-256

The curve is `y ^ 2 = x ^ 3 - 3 * x + b`. A point is the point at infinity, the
identity, or an affine point. Nothing in the type says that a point is on the
curve: `Point.isOnCurve` does.

Sums and multiples are worked out in Jacobian coordinates, in which `(x, y, z)`
stands for `(x / z ^ 2, y / z ^ 3)` and `z = 0` for infinity, so that there is
only one division, at the end.
-/

namespace PrivateMatching

namespace P256

/-- The constant of the curve. -/
def curveB : Field := 0x5ac635d8aa3a93e7b3ebbd55769886bc651d06b0cc53b0f63bce3c3e27d2604b

/-- The right-hand side of the equation of the curve. -/
def curveValue (x : Field) : Field := x * x * x - 3 * x + curveB

/-- A point in the plane of the curve, or the point at infinity. -/
inductive Point where
  /-- The identity. -/
  | infinity
  /-- An affine point. -/
  | affine (x y : Field)
  deriving DecidableEq

/-- A point in Jacobian coordinates. -/
structure Jacobian where
  /-- The first coordinate, to be divided by the square of `z`. -/
  x : Field
  /-- The second coordinate, to be divided by the cube of `z`. -/
  y : Field
  /-- The denominator; zero at infinity. -/
  z : Field

namespace Jacobian

/-- The point at infinity. -/
def infinity : Jacobian := ⟨1, 1, 0⟩

/-- The double of a point. -/
def double (p : Jacobian) : Jacobian :=
  let delta := p.z * p.z
  let gamma := p.y * p.y
  let beta := p.x * gamma
  let alpha := 3 * ((p.x - delta) * (p.x + delta))
  let x := alpha * alpha - 8 * beta
  ⟨x, alpha * (4 * beta - x) - 8 * (gamma * gamma), 2 * (p.y * p.z)⟩

/-- The sum of two points. -/
def add (p q : Jacobian) : Jacobian :=
  if p.z = 0 then q
  else if q.z = 0 then p
  else
    let pz := p.z * p.z
    let qz := q.z * q.z
    let u := p.x * qz
    let s := p.y * (qz * q.z)
    let h := q.x * pz - u
    let r := q.y * (pz * p.z) - s
    if h = 0 then
      if r = 0 then p.double else infinity
    else
      let hh := h * h
      let hhh := h * hh
      let v := u * hh
      let x := r * r - hhh - 2 * v
      ⟨x, r * (v - x) - s * hhh, h * (p.z * q.z)⟩

/-- The multiple of a point. -/
def smul (n : Nat) (p : Jacobian) : Jacobian := power infinity add double p n

/-- The affine point that the coordinates stand for. -/
def toPoint (p : Jacobian) : Point :=
  if p.z = 0 then
    .infinity
  else
    let w := Modular.inv p.z
    .affine (p.x * (w * w)) (p.y * (w * w * w))

end Jacobian

namespace Point

/-- The base point. -/
def generator : Point :=
  .affine 0x6b17d1f2e12c4247f8bce6e563a440f277037d812deb33a0f4a13945d898c296
    0x4fe342e2fe1a7f9b8ee7eb4a7c0f9e162bce33576b315ececbb6406837bf51f5

/-- Whether a point is on the curve. -/
def isOnCurve : Point → Bool
  | .infinity => true
  | .affine x y => y * y == curveValue x

/-- Jacobian coordinates of a point. -/
def toJacobian : Point → Jacobian
  | .infinity => .infinity
  | .affine x y => ⟨x, y, 1⟩

/-- The sum of two points. -/
def add (p q : Point) : Point := (p.toJacobian.add q.toJacobian).toPoint

/-- The multiple of a point. -/
def smul (n : Nat) (p : Point) : Point := (p.toJacobian.smul n).toPoint

/-- Whether a point is the identity. -/
def isInfinity : Point → Bool
  | .infinity => true
  | .affine .. => false

end Point

end P256

end PrivateMatching
