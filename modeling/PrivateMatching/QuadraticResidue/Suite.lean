import PrivateMatching.Hashing.Framing
import PrivateMatching.Hashing.Sha3
import PrivateMatching.QuadraticResidue.Power
import PrivateMatching.Suite

/-!
# The toy suite

The quadratic residues modulo the safe prime 2039 = 2 * 1019 + 1 are a cyclic
group of prime order 1019. Discrete logarithms are trivial in it: the suite is
for working through the protocol with numbers that fit on paper. Elements are held
in machine words. Exponents are numbers below the order; what is calculated with
them is the same in machine words (`ScalarTerm.evalWord_eq`).

An identifier is hashed by squaring a hashed residue. The square is the identity
for the residues 1 and 2038 only, and then the next of 64 counters is tried.
-/

namespace PrivateMatching

namespace QuadraticResidue

/-- The safe prime. -/
def prime : UInt32 := 2039

/-- The prime order of the group. -/
def order : Nat := 1019

/-- The exponents, written in two bytes, most significant first. -/
def scalars : ScalarFormat where
  order := order
  width := 2
  byteOrder := .big

/-- An element, held as its residue. -/
structure Residue where
  /-- The least representative. -/
  value : UInt32
  deriving DecidableEq

namespace Residue

/-- The identity. -/
def one : Residue := ⟨1⟩

/-- The generator, the square of two. -/
def generator : Residue := ⟨4⟩

/-- The product of two residues. -/
def mul (a b : Residue) : Residue :=
  ⟨(a.value.toUInt64 * b.value.toUInt64 % prime.toUInt64).toUInt32⟩

/-- A residue raised to a scalar. -/
def exp (a : Residue) (s : Scalar order) : Residue :=
  ⟨modPow a.value (UInt32.ofNat s.val) prime⟩

/-- Whether a residue is the identity. -/
def isIdentity (a : Residue) : Bool := a.value == 1

/-- The number of bytes of an encoded residue. -/
def width : Nat := 2

/-- The two bytes of a residue, most significant first. -/
def encode (a : Residue) : Bytes := Bytes.ofNatBE width a.value.toNat

/-- Whether a word is a quadratic residue in its least representative: it is not
    zero, it is below the prime, and the order takes it to one. -/
def isMember (value : UInt32) : Bool :=
  value != 0 && value < prime && modPow value (UInt32.ofNat order) prime == 1

/-- Reads a residue. -/
def decode (bytes : Bytes) : Except EncodingFault Residue :=
  if bytes.length ≠ width then
    .error (.wrongLength width bytes.length)
  else
    let value := UInt32.ofNat (Bytes.toNatBE bytes)
    if !isMember value then
      .error .malformed
    else if value = 1 then
      .error .identity
    else
      .ok ⟨value⟩

end Residue

/-- What is hashed for a counter: the framed stream and the counter in four
    bytes. -/
def preimage (inputs tags : List Bytes) (counter : Nat) : Bytes :=
  Framing.stream inputs tags ++ Bytes.ofNatBE 4 counter

/-- The residue in 1 … 2038 that a digest denotes. -/
def ofDigest (digest : Bytes) : Residue :=
  ⟨UInt32.ofNat (Bytes.toNatBE (digest.take 8) % (prime.toNat - 1) + 1)⟩

/-- The number of counters that are tried. -/
def counters : Nat := 64

/-- The first square that is not the identity, among the residues that the hash
    gives to `tries` counters from `counter` on. -/
def hashFrom (hash : Bytes → Bytes) (inputs tags : List Bytes) :
    (tries counter : Nat) → Except HashFault Residue
  | 0, _ => .error .countersExhausted
  | tries + 1, counter =>
    let x := ofDigest (hash (preimage inputs tags counter))
    let square := x.mul x
    if square.isIdentity then hashFrom hash inputs tags tries (counter + 1) else .ok square

/-- Hashes inputs under tags to a residue, by any hash of byte strings. -/
def hashWith (hash : Bytes → Bytes) (inputs tags : List Bytes) : Except HashFault Residue :=
  hashFrom hash inputs tags counters 0

/-- Scalars are drawn as four bytes, least significant first, modulo the order. -/
def scalarSampler : Sampler (Scalar order) where
  width := 4
  ofBlock block := some (scalars.ofNat (Bytes.toNatLE block))

/-- The toy suite. -/
def suite : Suite where
  name := "toy"
  scalars := scalars
  Element := Residue
  elementWidth := Residue.width
  one := Residue.one
  generator := Residue.generator
  mul := Residue.mul
  exp := Residue.exp
  equal a b := a == b
  isIdentity := Residue.isIdentity
  encode := Residue.encode
  decode := Residue.decode
  hash := hashWith Sha3.digest256
  scalarSampler := scalarSampler
  elementSampler := scalarSampler.map Residue.generator.exp

end QuadraticResidue

end PrivateMatching
