import PrivateMatching.Cbor.Item

/-!
# Tagged items

What tags do to the meaning of items. Where a number is expected, two tags make a
byte string the magnitude of a big number (`Item.toNat?`); all other tags mean
nothing there, and where an array, a map or a string is expected no tag does
(`Item.untagged`).

An item whose meaning is of no interest may be passed over (`Item.skippable`),
unless it nests too deep; its tags then count as levels, too. Its big numbers of
at most sixteen bytes are read as signed numbers of that width, and the negative
ones have to fit.
-/

namespace PrivateMatching

namespace Cbor

namespace Item

/-- The tag of a big natural number. -/
def bigNaturalTag : UInt64 := 2

/-- The tag of a big negative number. -/
def bigNegativeTag : UInt64 := 3

/-- An item without its tags. -/
def untagged : Item → Item
  | .tagged _ item => untagged item
  | item => item

/-- The bytes of a byte string. -/
def toByteString? : Item → Option Bytes
  | .bytes _ value => some value
  | _ => none

/-- The natural number that an item denotes. -/
def toNat? : Item → Option Nat
  | .unsigned n => some n.toNat
  | .tagged tag item =>
    if tag = bigNaturalTag then (toByteString? item).map Bytes.toNatBE
    else if tag = bigNegativeTag then none
    else toNat? item
  | _ => none

/-- The most bytes of a big number that is read when it is passed over. -/
def maxShortBignum : Nat := 16

/-- The least number of sixteen bytes with a sign. -/
def minBignum : Int := -0x80000000000000000000000000000000

/-- The big number that a tag makes of an item, if it is a whole byte string of
    at most sixteen bytes. -/
def shortBignum? (tag : UInt64) : Item → Option Int
  | .bytes .whole value =>
    if value.length ≤ maxShortBignum then
      if tag = bigNaturalTag then some (Bytes.toNatBE value)
      else if tag = bigNegativeTag then some (-1 - Bytes.toNatBE value)
      else none
    else
      none
  | _ => none

mutual

/-- Whether an item may be passed over: every array, map and tag in it takes one
    of the `levels` that are left, and big numbers take none. -/
def skippable : (levels : Nat) → Item → Bool
  | levels, .array items => 0 < levels && skippableItems (levels - 1) items
  | levels, .map entries => 0 < levels && skippableEntries (levels - 1) entries
  | levels, .tagged tag item =>
    match shortBignum? tag item with
    | some n => minBignum ≤ n
    | none => 0 < levels && skippable (levels - 1) item
  | _, _ => true

/-- Whether all of some items may be passed over. -/
def skippableItems : (levels : Nat) → List Item → Bool
  | _, [] => true
  | levels, item :: items => skippable levels item && skippableItems levels items

/-- Whether the names and values of all of some entries may be passed over. -/
def skippableEntries : (levels : Nat) → List (Item × Item) → Bool
  | _, [] => true
  | levels, (name, value) :: entries =>
    skippable levels name && skippable levels value && skippableEntries levels entries

end

end Item

end Cbor

end PrivateMatching
