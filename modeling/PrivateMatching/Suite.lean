import PrivateMatching.Sampler
import PrivateMatching.Scalar

/-!
# Suites

A suite is a group to match identifiers in, with all that the parties have to
agree on: how elements and scalars are written, how identifiers are hashed into
the group, and how random values are drawn. Groups are written multiplicatively.

A suite only has the operations. Nothing in it says that they obey the laws of a
group: what needs the laws takes them as an assumption.
-/

namespace PrivateMatching

/-- A group with its encodings, its hash and its samplers. -/
structure Suite where
  /-- The name of the group. -/
  name : String
  /-- The exponents and their encoding. -/
  scalars : ScalarFormat
  /-- The elements, in some representation: one element may have many. -/
  Element : Type
  /-- The number of bytes of an encoded element. -/
  elementWidth : Nat
  /-- The identity. -/
  one : Element
  /-- The fixed generator. -/
  generator : Element
  /-- The group operation. -/
  mul : Element → Element → Element
  /-- An element raised to a scalar. -/
  exp : Element → Scalar scalars.order → Element
  /-- Whether two representations are of one element. -/
  equal : Element → Element → Bool
  /-- Whether an element is the identity. -/
  isIdentity : Element → Bool
  /-- The fixed-width encoding of an element. -/
  encode : Element → Bytes
  /-- Reads an element; the identity is refused. -/
  decode : Bytes → Except EncodingFault Element
  /-- Hashes inputs into the group, under domain separation tags. -/
  hash : (inputs tags : List Bytes) → Except HashFault Element
  /-- How scalars are drawn. -/
  scalarSampler : Sampler (Scalar scalars.order)
  /-- How elements are drawn. -/
  elementSampler : Sampler Element

namespace Suite

/-- The order of the group of a suite. -/
abbrev order (C : Suite) : Nat := C.scalars.order

/-- The generator raised to a scalar. -/
def generatorExp (C : Suite) (s : Scalar C.order) : C.Element := C.exp C.generator s

end Suite

end PrivateMatching
