import PrivateMatching.Cbor.Head

/-!
# CBOR items

The data that CBOR strings denote, and `Item.encode`, which writes an item with
the shortest heads. Of a string it is part of the item whether it is whole or in
chunks, since not every place takes a string in chunks; arrays and maps are
the same with and without their lengths.
-/

namespace PrivateMatching

namespace Cbor

/-- The constants of CBOR. -/
inductive Constant where
  /-- The truth value false. -/
  | no
  /-- The truth value true. -/
  | yes
  /-- The absent value. -/
  | null
  /-- The undefined value. -/
  | undefined
  deriving DecidableEq

namespace Constant

/-- The argument of the head of a constant. -/
def code : Constant → Nat
  | .no => 20
  | .yes => 21
  | .null => 22
  | .undefined => 23

/-- The constant of an argument; the others have no meaning. -/
def ofCode? (n : Nat) : Option Constant :=
  if n = 20 then some .no
  else if n = 21 then some .yes
  else if n = 22 then some .null
  else if n = 23 then some .undefined
  else none

end Constant

/-- The widths of floating-point numbers. -/
inductive FloatWidth where
  /-- Two bytes. -/
  | half
  /-- Four bytes. -/
  | single
  /-- Eight bytes. -/
  | double
  deriving DecidableEq

/-- The encoding of a floating-point number. -/
def FloatWidth.encode (bits : UInt64) : FloatWidth → Bytes
  | .half => Head.firstByte .other 25 :: Bytes.ofNatBE 2 bits.toNat
  | .single => Head.firstByte .other 26 :: Bytes.ofNatBE 4 bits.toNat
  | .double => Head.firstByte .other 27 :: Bytes.ofNatBE 8 bits.toNat

/-- How the bytes of a string are given. -/
inductive Form where
  /-- In one piece, behind their number. -/
  | whole
  /-- In chunks, up to a stop. -/
  | chunked
  deriving DecidableEq

/-- The encoding of a string by its bytes; one in chunks is written in a single
    chunk. -/
def Form.encode (major : Major) (value : Bytes) : Form → Bytes
  | .whole => Head.encode major value.length ++ value
  | .chunked =>
    Head.firstByte major 31 ::
      (Head.encode major value.length ++ value ++ [Head.firstByte .other 31])

/-- An item of CBOR data. -/
inductive Item where
  /-- A natural number. -/
  | unsigned (n : UInt64)
  /-- The number `-1 - n`. -/
  | negative (n : UInt64)
  /-- A byte string. -/
  | bytes (form : Form) (value : Bytes)
  /-- A text. -/
  | text (form : Form) (value : String)
  /-- An array. -/
  | array (items : List Item)
  /-- A map, with its entries in order; names may be repeated. -/
  | map (entries : List (Item × Item))
  /-- An item with a tag. -/
  | tagged (tag : UInt64) (item : Item)
  /-- A constant. -/
  | constant (value : Constant)
  /-- A floating-point number, by its bits. -/
  | float (width : FloatWidth) (bits : UInt64)

namespace Item

mutual

/-- The encoding of an item. -/
def encode : Item → Bytes
  | .unsigned n => Head.encode .unsigned n.toNat
  | .negative n => Head.encode .negative n.toNat
  | .bytes form value => form.encode .bytes value
  | .text form value => form.encode .text (Bytes.ofText value)
  | .array items => Head.encode .array items.length ++ encodeItems items
  | .map entries => Head.encode .map entries.length ++ encodeEntries entries
  | .tagged tag item => Head.encode .tag tag.toNat ++ encode item
  | .constant value => Head.encode .other value.code
  | .float width bits => FloatWidth.encode bits width

/-- The encodings of items, one behind the other. -/
def encodeItems : List Item → Bytes
  | [] => []
  | item :: items => encode item ++ encodeItems items

/-- The encodings of the entries of a map, each name before its value. -/
def encodeEntries : List (Item × Item) → Bytes
  | [] => []
  | (name, value) :: entries => encode name ++ encode value ++ encodeEntries entries

end

end Item

end Cbor

end PrivateMatching
