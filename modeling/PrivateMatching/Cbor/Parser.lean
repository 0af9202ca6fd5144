import PrivateMatching.Cbor.Item

/-!
# Reading CBOR items

`Item.parse` reads the item at the front of a CBOR string, and gives what is
behind it. Arrays and maps nest to a limited number of levels, so that reading
a string never goes deeper, whatever the string is; tags are no level.

What goes on up to a stop, and the tags in front of an item, take a limit for
the number of their parts. Each part is at least one byte, so the length of the
string that is read is a limit that is never in the way.
-/

namespace PrivateMatching

namespace Cbor

/-- Reads `count` values one behind the other. -/
def parseMany (parse : Bytes → Option (α × Bytes)) :
    (count : Nat) → Bytes → Option (List α × Bytes)
  | 0, input => some ([], input)
  | count + 1, input =>
    match parse input with
    | none => none
    | some (value, rest) =>
      match parseMany parse count rest with
      | none => none
      | some (values, rest) => some (value :: values, rest)

/-- Reads values one behind the other, and the stop behind the last one. -/
def parseToStop (parse : Bytes → Option (α × Bytes)) :
    (limit : Nat) → Bytes → Option (List α × Bytes)
  | 0, _ => none
  | limit + 1, input =>
    match Head.parse input with
    | some (.stop, rest) => some ([], rest)
    | _ =>
      match parse input with
      | none => none
      | some (value, rest) =>
        match parseToStop parse limit rest with
        | none => none
        | some (values, rest) => some (value :: values, rest)

/-- Reads two values one behind the other. -/
def parsePair (parse : Bytes → Option (α × Bytes)) (input : Bytes) :
    Option ((α × α) × Bytes) :=
  match parse input with
  | none => none
  | some (first, rest) =>
    match parse rest with
    | none => none
    | some (second, rest) => some ((first, second), rest)

/-- Reads the chunks of a string and the stop behind them. A chunk is a whole
    string of the same major type; chunks may again be grouped, each group with
    a head and a stop of its own, and `groups` of them are open. -/
def parseChunks (major : Major) : (limit groups : Nat) → Bytes → Option (List Bytes × Bytes)
  | 0, _, _ => none
  | limit + 1, groups, input =>
    match Head.parse input with
    | some (.sized inner _ count, rest) =>
      if inner = major then
        match Bytes.splitAt? count rest with
        | none => none
        | some (chunk, rest) =>
          match parseChunks major limit groups rest with
          | none => none
          | some (chunks, rest) => some (chunk :: chunks, rest)
      else
        none
    | some (.endless inner, rest) =>
      if inner = major then parseChunks major limit (groups + 1) rest else none
    | some (.stop, rest) =>
      match groups with
      | 0 => some ([], rest)
      | groups + 1 => parseChunks major limit groups rest
    | none => none

/-- Reads the tags at the front of a string. -/
def parseTags : (limit : Nat) → Bytes → List UInt64 × Bytes
  | 0, input => ([], input)
  | limit + 1, input =>
    match Head.parse input with
    | some (.sized .tag _ tag, rest) =>
      let r := parseTags limit rest
      (UInt64.ofNat tag :: r.1, r.2)
    | _ => ([], input)

namespace Item

/-- The text of some chunks, each of which has to be UTF-8. -/
def textOfChunks? (chunks : List Bytes) : Option String :=
  (chunks.mapM Bytes.toText?).map String.join

/-- The constant or floating-point number of a head. -/
def ofOther? (width argument : Nat) : Option Item :=
  match width with
  | 2 => some (.float .half (UInt64.ofNat argument))
  | 4 => some (.float .single (UInt64.ofNat argument))
  | 8 => some (.float .double (UInt64.ofNat argument))
  | _ => (Constant.ofCode? argument).map .constant

/-- Reads the item whose head was read, `nested` reading the items inside it. -/
def parseBody (limit : Nat) (nested : Option (Bytes → Option (Item × Bytes))) :
    Head → Bytes → Option (Item × Bytes)
  | .sized .unsigned _ n, rest => some (.unsigned (UInt64.ofNat n), rest)
  | .sized .negative _ n, rest => some (.negative (UInt64.ofNat n), rest)
  | .sized .bytes _ count, rest =>
    (Bytes.splitAt? count rest).map fun r => (.bytes .whole r.1, r.2)
  | .sized .text _ count, rest =>
    match Bytes.splitAt? count rest with
    | none => none
    | some (value, rest) => (Bytes.toText? value).map fun value => (.text .whole value, rest)
  | .sized .array _ count, rest =>
    match nested with
    | none => none
    | some parse => (parseMany parse count rest).map fun r => (.array r.1, r.2)
  | .sized .map _ count, rest =>
    match nested with
    | none => none
    | some parse => (parseMany (parsePair parse) count rest).map fun r => (.map r.1, r.2)
  | .sized .tag _ _, _ => none
  | .sized .other width argument, rest => (ofOther? width argument).map fun item => (item, rest)
  | .endless .bytes, rest =>
    (parseChunks .bytes limit 0 rest).map fun r => (.bytes .chunked r.1.flatten, r.2)
  | .endless .text, rest =>
    match parseChunks .text limit 0 rest with
    | none => none
    | some (chunks, rest) => (textOfChunks? chunks).map fun value => (.text .chunked value, rest)
  | .endless .array, rest =>
    match nested with
    | none => none
    | some parse => (parseToStop parse limit rest).map fun r => (.array r.1, r.2)
  | .endless .map, rest =>
    match nested with
    | none => none
    | some parse => (parseToStop (parsePair parse) limit rest).map fun r => (.map r.1, r.2)
  | .endless _, _ => none
  | .stop, _ => none

/-- Reads an item with its tags, `nested` reading the items inside it. -/
def parseTagged (limit : Nat) (nested : Option (Bytes → Option (Item × Bytes))) (input : Bytes) :
    Option (Item × Bytes) :=
  let tags := parseTags limit input
  match Head.parse tags.2 with
  | none => none
  | some (head, rest) =>
    (parseBody limit nested head rest).map fun r => (tags.1.foldr .tagged r.1, r.2)

/-- Reads an item with arrays and maps nested at most `levels` deep, in a string
    of at most `limit` bytes. -/
def parseWithin (limit : Nat) : (levels : Nat) → Bytes → Option (Item × Bytes)
  | 0, input => parseTagged limit none input
  | levels + 1, input => parseTagged limit (some (parseWithin limit levels)) input

/-- Reads the item at the front of a string, with arrays and maps nested at most
    `levels` deep, and gives what is behind it. -/
def parse (levels : Nat) (input : Bytes) : Option (Item × Bytes) :=
  parseWithin input.length levels input

end Item

end Cbor

end PrivateMatching
