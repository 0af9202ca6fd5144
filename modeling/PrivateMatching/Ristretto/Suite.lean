import PrivateMatching.Hashing.Framing
import PrivateMatching.Hashing.Sha3
import PrivateMatching.Ristretto.Encoding
import PrivateMatching.Ristretto.OneWayMap
import PrivateMatching.Suite

/-!
# The suite of ristretto255

Identifiers are hashed with SHA3-512 as a framed stream, and the digest is mapped
to the group. A tag is not required.
-/

namespace PrivateMatching

namespace Ristretto

/-- The prime order of the group, `2 ^ 252 + 27742317777372353535851937790883648493`. -/
def order : Nat := 0x1000000000000000000000000000000014def9dea2f79cd65812631a5cf5d3ed

/-- The exponents, written in 32 bytes, least significant first. -/
def scalars : ScalarFormat where
  order := order
  width := 32
  byteOrder := .little

/-- Hashes inputs under tags to the group. -/
def hash (inputs tags : List Bytes) : Except HashFault Point :=
  .ok (ofUniform (Sha3.digest512 (Framing.stream inputs tags)))

/-- Scalars are drawn as 64 bytes, least significant first, modulo the order. -/
def scalarSampler : Sampler (Scalar order) where
  width := 64
  ofBlock block := some (scalars.ofNat (Bytes.toNatLE block))

/-- Elements are drawn as 64 bytes, mapped to the group. -/
def elementSampler : Sampler Point where
  width := 2 * elementBytes
  ofBlock block := some (ofUniform block)

/-- A point raised to a scalar. -/
def Point.exp (p : Point) (s : Scalar order) : Point := p.smul s.val

/-- The suite of ristretto255. -/
def suite : Suite where
  name := "ristretto255"
  scalars := scalars
  Element := Point
  elementWidth := Point.width
  one := Point.identity
  generator := Point.generator
  mul := Point.add
  exp := Point.exp
  equal := Point.equal
  isIdentity := Point.isIdentity
  encode := Point.encode
  decode := Point.decode
  hash := hash
  scalarSampler := scalarSampler
  elementSampler := elementSampler

end Ristretto

end PrivateMatching
