/-!
# Byte strings

A byte string is a list of bytes. Fixed-width numbers are read from and written
to byte strings in either byte order: `Bytes.toNat` is the value of a string,
`Bytes.ofNat` writes the low-order bytes of a number in a given width.

* `Bytes.length_ofNat`: a number written in a width takes exactly that width;
* `Bytes.ofNat_toNat`: writing the value of a string gives the string back, so
  strings of one width are told apart by their values.
-/

namespace PrivateMatching

/-- A string of bytes, as it travels between parties. -/
abbrev Bytes := List UInt8

/-- Which end of a number comes first in its byte string. -/
inductive ByteOrder where
  /-- The most significant byte comes first. -/
  | big
  /-- The least significant byte comes first. -/
  | little
  deriving DecidableEq

namespace Bytes

/-- The value of a byte string whose first byte is the least significant. -/
def toNatLE : Bytes → Nat
  | [] => 0
  | b :: rest => b.toNat + 256 * toNatLE rest

/-- The value of a byte string whose first byte is the most significant. -/
def toNatBE (bytes : Bytes) : Nat := toNatLE bytes.reverse

/-- The low `width` bytes of a number, least significant first. -/
def ofNatLE : (width : Nat) → Nat → Bytes
  | 0, _ => []
  | width + 1, n => UInt8.ofNat n :: ofNatLE width (n / 256)

/-- The low `width` bytes of a number, most significant first. -/
def ofNatBE (width n : Nat) : Bytes := (ofNatLE width n).reverse

/-- The value of a byte string in a byte order. -/
def toNat : ByteOrder → Bytes → Nat
  | .big => toNatBE
  | .little => toNatLE

/-- The low `width` bytes of a number in a byte order. -/
def ofNat : ByteOrder → (width : Nat) → Nat → Bytes
  | .big => ofNatBE
  | .little => ofNatLE

/-- The UTF-8 bytes of a text. -/
def ofText (text : String) : Bytes := text.toByteArray.data.toList

/-- The text whose UTF-8 bytes a byte string is, if there is one. -/
def toText? (bytes : Bytes) : Option String := String.fromUTF8? ⟨bytes.toArray⟩

/-- The first `count` bytes, and what is behind them. -/
def splitAt? (count : Nat) (bytes : Bytes) : Option (Bytes × Bytes) :=
  let front := bytes.take count
  if front.length = count then some (front, bytes.drop count) else none

/-- The bitwise exclusive or of two byte strings, as long as the shorter one. -/
def xor (a b : Bytes) : Bytes := List.zipWith (· ^^^ ·) a b

/-- A string splits where it was put together. -/
theorem splitAt?_append (front rest : Bytes) :
    splitAt? front.length (front ++ rest) = some (front, rest) := by
  simp [splitAt?]

/-- A string splits unless it is too short. -/
theorem splitAt?_eq_none_iff (count : Nat) (bytes : Bytes) :
    splitAt? count bytes = none ↔ bytes.length < count := by
  simp only [splitAt?, List.length_take]
  split <;> simp <;> omega

@[simp] theorem length_ofNatLE (width n : Nat) : (ofNatLE width n).length = width := by
  induction width generalizing n with
  | zero => rfl
  | succ width ih => simp [ofNatLE, ih]

@[simp] theorem length_ofNatBE (width n : Nat) : (ofNatBE width n).length = width := by
  simp [ofNatBE]

@[simp] theorem length_ofNat (order : ByteOrder) (width n : Nat) :
    (ofNat order width n).length = width := by
  cases order <;> simp [ofNat]

theorem ofNatLE_toNatLE (bytes : Bytes) : ofNatLE bytes.length (toNatLE bytes) = bytes := by
  induction bytes with
  | nil => rfl
  | cons b rest ih =>
    have hb : UInt8.ofNat (b.toNat + 256 * toNatLE rest) = b := by
      apply UInt8.toNat_inj.1
      have := b.toNat_lt
      simp only [UInt8.toNat_ofNat']
      omega
    have hrest : (b.toNat + 256 * toNatLE rest) / 256 = toNatLE rest := by
      have := b.toNat_lt
      omega
    rw [List.length_cons, toNatLE, ofNatLE, hb, hrest, ih]

theorem ofNatBE_toNatBE (bytes : Bytes) : ofNatBE bytes.length (toNatBE bytes) = bytes := by
  rw [ofNatBE, toNatBE, ← List.length_reverse, ofNatLE_toNatLE, List.reverse_reverse]

/-- Writing the value of a string in its own width gives the string back. -/
theorem ofNat_toNat (order : ByteOrder) (bytes : Bytes) :
    ofNat order bytes.length (toNat order bytes) = bytes := by
  cases order
  · exact ofNatBE_toNatBE bytes
  · exact ofNatLE_toNatLE bytes

end Bytes

end PrivateMatching
