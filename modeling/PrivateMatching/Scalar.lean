import PrivateMatching.Bytes
import PrivateMatching.Failure
import PrivateMatching.Power

/-!
# Scalars

The exponents of a group are the residues modulo its order. They travel in a
fixed width, as their least representative in the byte order of the group; a
value that is not smaller than the order is refused, never reduced.

* `ScalarFormat.encode_of_decode`: an accepted string is the encoding of what it
  decodes to, so no scalar has two encodings.
-/

namespace PrivateMatching

/-- An exponent modulo the order of a group. -/
abbrev Scalar (order : Nat) := Fin order

namespace Scalar

/-- The inverse of a scalar modulo a prime order; zero has none. -/
def inv? {order : Nat} (a : Scalar order) : Option (Scalar order) :=
  if a.val = 0 then none else some (Modular.inv a)

/-- Whether a scalar is zero. -/
def isZero {order : Nat} (a : Scalar order) : Bool := a.val == 0

end Scalar

/-- The exponents of a group and how they are written. -/
structure ScalarFormat where
  /-- The order of the group. -/
  order : Nat
  /-- The number of bytes of an encoded scalar. -/
  width : Nat
  /-- The byte order of an encoded scalar. -/
  byteOrder : ByteOrder
  /-- The group is not trivial. -/
  one_lt_order : 1 < order := by decide
  /-- Every scalar fits the width. -/
  order_le : order ≤ Nat.pow 256 width := by decide

namespace ScalarFormat

variable (F : ScalarFormat)

/-- The scalar zero. -/
def zero : Scalar F.order := ⟨0, Nat.lt_trans Nat.zero_lt_one F.one_lt_order⟩

/-- The scalar one. -/
def one : Scalar F.order := ⟨1, F.one_lt_order⟩

/-- The scalar of a natural number, modulo the order. -/
def ofNat (n : Nat) : Scalar F.order :=
  ⟨n % F.order, Nat.mod_lt n (Nat.lt_trans Nat.zero_lt_one F.one_lt_order)⟩

/-- The fixed-width encoding of a scalar. -/
def encode (a : Scalar F.order) : Bytes := Bytes.ofNat F.byteOrder F.width a.val

/-- Reads a scalar: the width is checked first, then the range. -/
def decode (bytes : Bytes) : Except EncodingFault (Scalar F.order) :=
  if bytes.length ≠ F.width then
    .error (.wrongLength F.width bytes.length)
  else if h : Bytes.toNat F.byteOrder bytes < F.order then
    .ok ⟨Bytes.toNat F.byteOrder bytes, h⟩
  else
    .error .malformed

variable {F}

@[simp] theorem length_encode (a : Scalar F.order) : (F.encode a).length = F.width :=
  Bytes.length_ofNat ..

/-- An accepted string is the encoding of what it decodes to. -/
theorem encode_of_decode {bytes : Bytes} {a : Scalar F.order} (h : F.decode bytes = .ok a) :
    F.encode a = bytes := by
  unfold decode at h
  split at h
  · cases h
  · rename_i hlength
    split at h
    · cases h
      rw [encode, ← Decidable.not_not.1 hlength, Bytes.ofNat_toNat]
    · cases h

end ScalarFormat

end PrivateMatching
