import Mathlib.Algebra.Order.Ring.Nat
import Mathlib.Data.Nat.Digits.Defs
import Mathlib.Data.Nat.ModEq
import PrivateMatching.Bytes

/-!
# Numbers and texts in byte strings

The value of a byte string is bounded by its width (`Bytes.toNat_lt`), and a
number below that bound is the value of its string (`Bytes.toNat_ofNat`). It is the
number with the bytes as its digits (`Bytes.toNatLE_eq_ofDigits`). A text is read from
its UTF-8 bytes (`Bytes.toText?_ofText`).
-/

namespace PrivateMatching

namespace Bytes

theorem toNatLE_lt (bytes : Bytes) : toNatLE bytes < 256 ^ bytes.length := by
  induction bytes with
  | nil => exact Nat.one_pos
  | cons b rest ih =>
    have := b.toNat_lt
    rw [toNatLE, List.length_cons, pow_succ']
    omega

/-- The value of a string is bounded by its width. -/
theorem toNat_lt (order : ByteOrder) (bytes : Bytes) : toNat order bytes < 256 ^ bytes.length := by
  rcases order with _ | _
  · rw [toNat, toNatBE, ← List.length_reverse]
    exact toNatLE_lt _
  · exact toNatLE_lt bytes

theorem toNatLE_ofNatLE (width n : ℕ) : toNatLE (ofNatLE width n) = n % 256 ^ width := by
  induction width generalizing n with
  | zero => rw [ofNatLE, toNatLE, pow_zero, Nat.mod_one]
  | succ width ih =>
    rw [ofNatLE, toNatLE, ih, UInt8.toNat_ofNat', pow_succ' 256 width, Nat.mod_mul]

/-- A number that fits a width is the value of its string. -/
theorem toNat_ofNat (order : ByteOrder) {width n : ℕ} (h : n < 256 ^ width) :
    toNat order (ofNat order width n) = n := by
  cases order with
  | big =>
    rw [toNat, ofNat, toNatBE, ofNatBE, List.reverse_reverse, toNatLE_ofNatLE, Nat.mod_eq_of_lt h]
  | little => rw [toNat, ofNat, toNatLE_ofNatLE, Nat.mod_eq_of_lt h]

/-- The bytes of a string are the digits of its value, the first one the least
    significant. -/
theorem toNatLE_eq_ofDigits (bytes : Bytes) :
    toNatLE bytes = Nat.ofDigits 256 (bytes.map UInt8.toNat) := by
  induction bytes with
  | nil => rfl
  | cons b rest ih => rw [toNatLE, ih, List.map_cons, Nat.ofDigits_cons]

/-- The same with the last byte the least significant. -/
theorem toNatBE_eq_ofDigits (bytes : Bytes) :
    toNatBE bytes = Nat.ofDigits 256 (bytes.map UInt8.toNat).reverse := by
  rw [toNatBE, toNatLE_eq_ofDigits, List.map_reverse]

/-- A text is read from its bytes. -/
theorem toText?_ofText (text : String) : toText? (ofText text) = some text := by
  have hbytes : (⟨(ofText text).toArray⟩ : ByteArray) = text.toByteArray := by
    rw [ofText, Array.toArray_toList]
  rw [toText?, hbytes, String.fromUTF8?, dif_pos text.isValidUTF8]
  rfl

/-- Texts are told apart by their bytes. -/
theorem ofText_inj {s t : String} : ofText s = ofText t ↔ s = t := by
  constructor
  · intro h
    rw [← Option.some_inj, ← toText?_ofText s, h, toText?_ofText]
  · rintro rfl
    rfl

end Bytes

end PrivateMatching
