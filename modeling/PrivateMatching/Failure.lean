import PrivateMatching.Direction

/-!
# Failures

Why an encoding, a key, a hash or a batch is refused. A failure is a cause; its
wording is `message`, in one place per kind. No failure holds key material: of a
key, only its length is told.
-/

namespace PrivateMatching

/-- Why a byte string of an element or a scalar is refused. -/
inductive EncodingFault where
  /-- The string is not as wide as the encoding. -/
  | wrongLength (expected actual : Nat)
  /-- The string has the right width and encodes nothing. -/
  | malformed
  /-- The string encodes the identity of the group. -/
  | identity
  deriving DecidableEq

/-- The wording of a refused encoding. -/
def EncodingFault.message : EncodingFault → String
  | .wrongLength expected actual =>
    "expected " ++ toString expected ++ " bytes, found " ++ toString actual
  | .malformed => "bytes do not encode a canonical group value"
  | .identity => "identity element is not a valid input"

/-- Why a key is refused. -/
inductive KeyFault where
  /-- The string is not as wide as a scalar. -/
  | wrongLength (expected actual : Nat)
  /-- The scalar is zero. -/
  | zero
  /-- The value is not smaller than the group order. -/
  | outOfRange
  deriving DecidableEq

/-- The wording of a refused key. -/
def KeyFault.message : KeyFault → String
  | .wrongLength expected actual =>
    "expected " ++ toString expected ++ " bytes, found " ++ toString actual
  | .zero => "key is zero"
  | .outOfRange => "key is not smaller than the group order"

/-- Why an identifier cannot be hashed into a group. -/
inductive HashFault where
  /-- The hash to P-256 has no domain separation tag. -/
  | missingTag
  /-- Every counter of the hash to the toy group gave the identity. -/
  | countersExhausted
  deriving DecidableEq

/-- The wording of a failed hash. -/
def HashFault.message : HashFault → String
  | .missingTag => "P-256 hash to curve requires a domain separation tag"
  | .countersExhausted => "Failed to hash into the toy group"

/-- What group arithmetic never does on accepted input. -/
inductive ArithmeticFault where
  /-- A layer took an element to the identity. -/
  | identityResult (direction : Direction)
  /-- A key has no inverse. -/
  | keyNotInvertible
  deriving DecidableEq

/-- The wording of an arithmetic fault. -/
def ArithmeticFault.message : ArithmeticFault → String
  | .identityResult direction => direction.name ++ " transform produced the identity element"
  | .keyNotInvertible => "key scalar is not invertible"

/-- Why an operation on a batch is refused. A failure refuses the whole batch. -/
inductive Failure where
  /-- The element at a position, counted from zero, does not decode. -/
  | invalidEncoding (position : Nat) (reason : EncodingFault)
  /-- The key is not accepted. -/
  | invalidKey (reason : KeyFault)
  /-- The output is not as long as the input. -/
  | sizeMismatch (expected actual : Nat)
  /-- Group arithmetic gave what it never should. -/
  | arithmetic (cause : ArithmeticFault)
  /-- An identifier cannot be hashed into the group. -/
  | hash (cause : HashFault)
  deriving DecidableEq

/-- The wording of a failure. -/
def Failure.message : Failure → String
  | .invalidEncoding position reason =>
    "Invalid encoding at position " ++ toString position ++ ": " ++ reason.message
  | .invalidKey reason => "Invalid key: " ++ reason.message
  | .sizeMismatch expected actual =>
    "Batch size mismatch: expected " ++ toString expected ++ " elements, produced " ++
      toString actual
  | .arithmetic cause => "Internal arithmetic failure: " ++ cause.message
  | .hash cause => cause.message

end PrivateMatching
