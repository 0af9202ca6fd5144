import PrivateMatching.Direction

/-!
# Operations

Two parties match identifiers as follows. Each hashes its identifiers into the
group and applies its key; they exchange the batches and each re-applies its key
to the other's; equal results then mean equal identifiers. A party decrypts to
strip its own layer again, with the other's left in place.

The three operations differ in their direction and in the names of what they
take and give.
-/

namespace PrivateMatching

/-- The operations on batches. -/
inductive Operation where
  /-- Adds the first layer to hashed identifiers. -/
  | apply
  /-- Adds a layer to the batch of another party. -/
  | reapply
  /-- Strips a layer. -/
  | decrypt
  deriving DecidableEq

namespace Operation

/-- Which way an operation moves elements. -/
def direction : Operation → Direction
  | .apply | .reapply => .forward
  | .decrypt => .inverse

/-- The name of an operation in traces. -/
def name : Operation → String
  | .apply => "apply_commutative_encryption"
  | .reapply => "reapply_commutative_encryption"
  | .decrypt => "apply_commutative_decryption"

/-- The name of the requests of an operation. -/
def requestName : Operation → String
  | .apply => "ApplyCommutativeEncryptionRequest"
  | .reapply => "ReApplyCommutativeEncryptionRequest"
  | .decrypt => "ApplyCommutativeDecryptionRequest"

/-- The field of a request that holds the key. -/
def keyField : String := "encryption_key"

/-- The field of a request that holds the batch. -/
def inputField : Operation → String
  | .apply => "plaintexts"
  | .reapply | .decrypt => "encrypted_texts"

/-- The field of a response that holds the batch. -/
def outputField : Operation → String
  | .apply => "encrypted_texts"
  | .reapply => "reencrypted_texts"
  | .decrypt => "decrypted_texts"

end Operation

end PrivateMatching
