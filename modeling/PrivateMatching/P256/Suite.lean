import PrivateMatching.Hashing.ExpandMessage
import PrivateMatching.Hashing.Sha3
import PrivateMatching.P256.Compressed
import PrivateMatching.P256.HashToCurve
import PrivateMatching.Suite

/-!
# The suite of P-256

The points of the curve are a group of prime order, as its cofactor is one.
Identifiers are hashed to the curve with SHA3-256 under a domain separation tag,
which is required. Inputs are hashed as one string, and so are tags: where one
ends and the next begins makes no difference.
-/

namespace PrivateMatching

namespace P256

/-- The prime order of the group. -/
def order : Nat := 0xffffffff00000000ffffffffffffffffbce6faada7179e84f3b9cac2fc632551

/-- The exponents, written in 32 bytes, most significant first. -/
def scalars : ScalarFormat where
  order := order
  width := 32
  byteOrder := .big

/-- The number of uniform bytes of a hash. -/
def uniformBytes : Nat := 2 * elementBytes

/-- The uniform bytes of a message under a tag. -/
def expand (message tag : Bytes) : Bytes :=
  ExpandMessage.expand Sha3.digest256 Sha3.rate256 32 message tag uniformBytes

/-- Hashes inputs to the curve, under at least one tag. That there is none is the only
    fault: the expansion is defined for up to 255 digests and a length of two bytes, and
    the uniform bytes take three digests. -/
def hash (inputs tags : List Bytes) : Except HashFault Point :=
  if tags.isEmpty then .error .missingTag else .ok (ofUniform (expand inputs.flatten tags.flatten))

/-- Scalars are drawn as 32 bytes, most significant first, until the value is
    below the order. -/
def scalarSampler : Sampler (Scalar order) where
  width := 32
  ofBlock block :=
    if h : Bytes.toNatBE block < order then some ⟨Bytes.toNatBE block, h⟩ else none

/-- A point raised to a scalar. -/
def Point.exp (p : Point) (s : Scalar order) : Point := p.smul s.val

/-- The suite of P-256. -/
def suite : Suite where
  name := "p256"
  scalars := scalars
  Element := Point
  elementWidth := Point.width
  one := Point.infinity
  generator := Point.generator
  mul := Point.add
  exp := Point.exp
  equal p q := p == q
  isIdentity := Point.isInfinity
  encode := Point.encode
  decode := Point.decode
  hash := hash
  scalarSampler := scalarSampler
  elementSampler := scalarSampler.map Point.generator.exp

end P256

end PrivateMatching
