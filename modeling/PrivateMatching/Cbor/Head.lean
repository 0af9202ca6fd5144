import PrivateMatching.Bytes

/-!
# Heads of CBOR items

Every item of a CBOR string opens with a head: a major type and an argument. The
argument is in the first byte if it is small, and else in the one, two, four or
eight bytes behind it. Writing takes the shortest form; reading takes any form.
Strings, arrays and maps may do without an argument, which would be their
length; a stop is then behind the last of their parts.
-/

namespace PrivateMatching

namespace Cbor

/-- The major types of items. -/
inductive Major where
  /-- A natural number. -/
  | unsigned
  /-- A negative number. -/
  | negative
  /-- A byte string. -/
  | bytes
  /-- A text. -/
  | text
  /-- An array. -/
  | array
  /-- A map. -/
  | map
  /-- A tag on the next item. -/
  | tag
  /-- A constant or a floating-point number. -/
  | other
  deriving DecidableEq

namespace Major

/-- The number of a major type, in the three high bits of a head. -/
def code : Major → UInt8
  | .unsigned => 0
  | .negative => 1
  | .bytes => 2
  | .text => 3
  | .array => 4
  | .map => 5
  | .tag => 6
  | .other => 7

/-- The major type in the three high bits of a byte. -/
def ofByte (b : UInt8) : Major :=
  match (b >>> 5).toNat with
  | 0 => .unsigned
  | 1 => .negative
  | 2 => .bytes
  | 3 => .text
  | 4 => .array
  | 5 => .map
  | 6 => .tag
  | _ => .other

end Major

/-- The head of an item, or the stop behind the parts of one. -/
inductive Head where
  /-- A head with an argument, which is in `width` bytes behind the first one. -/
  | sized (major : Major) (width argument : Nat)
  /-- The head of a string, an array or a map whose parts go on up to a stop. -/
  | endless (major : Major)
  /-- The stop. -/
  | stop
  deriving DecidableEq

namespace Head

/-- The first byte of a head, with five bits of information beside the major
    type. -/
def firstByte (major : Major) (info : UInt8) : UInt8 := major.code <<< 5 ||| info

/-- The shortest head of a major type with an argument below 2 ^ 64. -/
def encode (major : Major) (argument : Nat) : Bytes :=
  if argument < 24 then [firstByte major (UInt8.ofNat argument)]
  else if argument < 0x100 then firstByte major 24 :: Bytes.ofNatBE 1 argument
  else if argument < 0x10000 then firstByte major 25 :: Bytes.ofNatBE 2 argument
  else if argument < 0x100000000 then firstByte major 26 :: Bytes.ofNatBE 4 argument
  else firstByte major 27 :: Bytes.ofNatBE 8 argument

/-- How many bytes behind the first one the five bits of information announce;
    those that announce none hold the argument themselves. -/
def widthOfInfo (info : Nat) : Option Nat :=
  if info < 24 then some 0
  else if info = 24 then some 1
  else if info = 25 then some 2
  else if info = 26 then some 4
  else if info = 27 then some 8
  else none

/-- The head of a major type that has no argument. -/
def ofMajor? : Major → Option Head
  | .bytes => some (.endless .bytes)
  | .text => some (.endless .text)
  | .array => some (.endless .array)
  | .map => some (.endless .map)
  | .other => some .stop
  | _ => none

/-- Reads a head, and gives what is behind it. -/
def parse : Bytes → Option (Head × Bytes)
  | [] => none
  | first :: rest =>
    let major := Major.ofByte first
    let info := (first &&& 0x1f).toNat
    if info = 31 then
      (ofMajor? major).map fun head => (head, rest)
    else
      match widthOfInfo info with
      | none => none
      | some 0 => some (.sized major 0 info, rest)
      | some width =>
        (Bytes.splitAt? width rest).map fun r => (.sized major width (Bytes.toNatBE r.1), r.2)

end Head

end Cbor

end PrivateMatching
