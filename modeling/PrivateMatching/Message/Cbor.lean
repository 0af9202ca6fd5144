import PrivateMatching.Cbor.Parser
import PrivateMatching.Cbor.Tagged
import PrivateMatching.Message.Basic

/-!
# Messages as CBOR

A message travels as a map from the names of its fields to their values. Byte
strings are arrays of numbers, and batches are arrays of those. Reading takes
the entries in any order and passes over those with other names; every field of
the message has to be there once. Tags on the parts of a message mean nothing,
and what is behind the map is not looked at.
-/

namespace PrivateMatching

namespace Cbor

namespace Item

/-- How deep arrays and maps may nest in a message. -/
def maxLevels : Nat := 256

/-- How deep they may nest in an entry that is passed over: the map of the
    message is a level around it. -/
def maxEntryLevels : Nat := maxLevels - 1

/-- The longest name of an entry, in bytes. -/
def maxNameLength : Nat := 4096

/-- The item of a byte string: the array of its bytes. -/
def ofBytes (value : Bytes) : Item := .array (value.map fun b => .unsigned b.toUInt64)

/-- The item of a batch: the array of its byte strings. -/
def ofBatch (elements : List Bytes) : Item := .array (elements.map ofBytes)

/-- The byte that an item denotes. -/
def toByte? (item : Item) : Option UInt8 :=
  match item.toNat? with
  | some n => if n < 256 then some (UInt8.ofNat n) else none
  | none => none

/-- The byte string that an item denotes. -/
def toBytes? (item : Item) : Option Bytes :=
  match item.untagged with
  | .array items => items.mapM toByte?
  | .bytes _ value => some value
  | _ => none

/-- The batch that an item denotes. -/
def toBatch? (item : Item) : Option (List Bytes) :=
  match item.untagged with
  | .array items => items.mapM toBytes?
  | .bytes _ [] => some []
  | _ => none

/-- The name that an item denotes, by its bytes. Names are not in chunks. -/
def toName? (item : Item) : Option Bytes :=
  match item.untagged with
  | .text .whole value => boundedName (Bytes.ofText value)
  | .bytes .whole value => boundedName value
  | _ => none
where
  /-- A name, unless it is too long. -/
  boundedName (name : Bytes) : Option Bytes :=
    if name.length ≤ maxNameLength then some name else none

/-- The entries of a map by their names. -/
def toEntries? (item : Item) : Option (List (Bytes × Item)) :=
  match item.untagged with
  | .map entries => entries.mapM fun entry => (toName? entry.1).map fun name => (name, entry.2)
  | _ => none

/-- The entries of a map by their names, where all but those of the fields can
    be passed over. -/
def toFields? (fields : List String) (item : Item) : Option (List (Bytes × Item)) :=
  match item.toEntries? with
  | none => none
  | some entries =>
    if entries.all passable then some entries else none
where
  /-- Whether an entry is one of a field or can be passed over. -/
  passable (entry : Bytes × Item) : Bool :=
    (fields.any fun field => entry.1 == Bytes.ofText field) ||
      entry.2.skippable maxEntryLevels

end Item

/-- The value of the only entry of a name. -/
def onlyEntry? (name : String) (entries : List (Bytes × Item)) : Option Item :=
  match entries.filter fun entry => entry.1 == Bytes.ofText name with
  | [entry] => some entry.2
  | _ => none

/-- The entry of a field. -/
def entry (name : String) (value : Item) : Item × Item := (.text .whole name, value)

end Cbor

open Cbor

namespace Request

variable {op : Operation}

/-- The map of a request. -/
def toItem (request : Request op) : Item :=
  .map [entry Operation.keyField (.ofBytes request.key),
    entry op.inputField (.ofBatch request.elements)]

/-- The request of a map. -/
def ofItem? (item : Item) : Option (Request op) := do
  let entries ← item.toFields? [Operation.keyField, op.inputField]
  let key ← onlyEntry? Operation.keyField entries
  let elements ← onlyEntry? op.inputField entries
  return ⟨← key.toBytes?, ← elements.toBatch?⟩

/-- The CBOR string of a request. -/
def toCbor (request : Request op) : Bytes := request.toItem.encode

/-- Reads a request. -/
def ofCbor? (bytes : Bytes) : Option (Request op) := do
  let (item, _) ← Item.parse Item.maxLevels bytes
  ofItem? item

end Request

namespace Response

variable {op : Operation}

/-- The map of a response. -/
def toItem (response : Response op) : Item :=
  .map [entry op.outputField (.ofBatch response.elements)]

/-- The response of a map. -/
def ofItem? (item : Item) : Option (Response op) := do
  let entries ← item.toFields? [op.outputField]
  let elements ← onlyEntry? op.outputField entries
  return ⟨← elements.toBatch?⟩

/-- The CBOR string of a response. -/
def toCbor (response : Response op) : Bytes := response.toItem.encode

/-- Reads a response. -/
def ofCbor? (bytes : Bytes) : Option (Response op) := do
  let (item, _) ← Item.parse Item.maxLevels bytes
  ofItem? item

end Response

end PrivateMatching
