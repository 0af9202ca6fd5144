import PrivateMatching.Bytes

/-!
# Expanding a message

A hash to a curve needs more uniform bytes than one digest has. A message and a
domain separation tag are expanded by chaining digests: `ExpandMessage.seedInput`
is the string whose digest seeds the chain, and `ExpandMessage.expand` gives as
many bytes as are asked for. The hash is a parameter.

The tag closes every hashed string, with its own length as the last byte; a tag
too long for that is first replaced by its digest.
-/

namespace PrivateMatching

namespace ExpandMessage

/-- The longest tag that is used as it is. -/
def maxTagLength : Nat := 255

/-- The tag in use: itself, or its digest if it is too long. -/
def shortTag (hash : Bytes → Bytes) (tag : Bytes) : Bytes :=
  if tag.length ≤ maxTagLength then tag else hash (Bytes.ofText "H2C-OVERSIZE-DST-" ++ tag)

/-- A tag with its length after it. -/
def closing (tag : Bytes) : Bytes := tag ++ [UInt8.ofNat tag.length]

/-- The string whose digest seeds the chain: a block of zeros, the message, the
    number of bytes that are wanted, a zero, and the closed tag. -/
def seedInput (blockWidth : Nat) (message tag : Bytes) (count : Nat) : Bytes :=
  List.replicate blockWidth 0 ++ message ++ Bytes.ofNatBE 2 count ++ [0] ++ closing tag

/-- The digests of the chain from the `index`-th on, `previous` being the one
    before. -/
def chain (hash : Bytes → Bytes) (seed tag : Bytes) :
    (digests : Nat) → (index : Nat) → (previous : Bytes) → Bytes
  | 0, _, _ => []
  | digests + 1, index, previous =>
    let digest := hash (Bytes.xor seed previous ++ [UInt8.ofNat index] ++ closing tag)
    digest ++ chain hash seed tag digests (index + 1) digest

/-- Expands a message under a tag to `count` bytes, with a hash that reads blocks
    of `blockWidth` bytes and gives digests of `digestWidth` bytes. -/
def expand (hash : Bytes → Bytes) (blockWidth digestWidth : Nat) (message tag : Bytes)
    (count : Nat) : Bytes :=
  let tag := shortTag hash tag
  let seed := hash (seedInput blockWidth message tag count)
  let digests := (count + digestWidth - 1) / digestWidth
  (chain hash seed tag digests 1 (List.replicate digestWidth 0)).take count

end ExpandMessage

end PrivateMatching
