import PrivateMatching.Proofs.Cbor.Written

/-!
# Items are read as they are written

An item *fits* some levels if its arrays and maps nest to no more than these, and
its lengths fit the heads that hold them (`Item.Fits`). Its encoding is then one of the
ways to write it (`Item.Fits.written`), which is read as the item, whatever is behind it,
and a string that breaks off before the end of the encoding holds no item
(`Item.Fits.parse_eq_none`).
-/

namespace PrivateMatching

namespace Cbor

/-- The encoding of a string is one of the ways to write it, whole or in a single chunk. -/
theorem Form.written_encode (form : Form) {major : Major} {value : Bytes}
    (h : value.length < Head.bound) : form.Written major [value] (form.encode major value) := by
  have hhead := Head.written_encode major h
  cases form with
  | whole => exact .whole hhead
  | chunked =>
    have hheads : ∀ chunk ∈ [(value, Head.encode major value.length)],
        Head.Written major chunk.1.length chunk.2 := List.forall_mem_singleton.2 hhead
    simpa [Form.encode, stopByte] using Written.chunked hheads

namespace Item

/-- An item can be written with arrays and maps nested to some levels. -/
inductive Fits : (levels : ℕ) → Item → Prop
  /-- All natural numbers fit. -/
  | unsigned {levels : ℕ} (n : UInt64) : Fits levels (.unsigned n)
  /-- All negative numbers fit. -/
  | negative {levels : ℕ} (n : UInt64) : Fits levels (.negative n)
  /-- The number of bytes fits a head. -/
  | bytes {levels : ℕ} (form : Form) {value : Bytes} (hlength : value.length < Head.bound) :
    Fits levels (.bytes form value)
  /-- The number of bytes of the text fits a head. -/
  | text {levels : ℕ} (form : Form) {value : String}
    (hlength : (Bytes.ofText value).length < Head.bound) : Fits levels (.text form value)
  /-- The number of parts fits a head, and the parts fit a level less. -/
  | array {levels : ℕ} {items : List Item} (hlength : items.length < Head.bound)
    (hitems : ∀ item ∈ items, Fits levels item) : Fits (levels + 1) (.array items)
  /-- The number of entries fits a head, and their names and values fit a level less. -/
  | map {levels : ℕ} {entries : List (Item × Item)} (hlength : entries.length < Head.bound)
    (hnames : ∀ entry ∈ entries, Fits levels entry.1)
    (hvalues : ∀ entry ∈ entries, Fits levels entry.2) : Fits (levels + 1) (.map entries)
  /-- A tag takes no level. -/
  | tagged {levels : ℕ} (tag : UInt64) {item : Item} (hitem : Fits levels item) :
    Fits levels (.tagged tag item)
  /-- All constants fit. -/
  | constant {levels : ℕ} (value : Constant) : Fits levels (.constant value)
  /-- The bits are no more than the width has. -/
  | float {levels : ℕ} {width : FloatWidth} {bits : UInt64}
    (hbits : bits.toNat < 256 ^ width.size) : Fits levels (.float width bits)

/-! ## Encodings of parts -/

theorem encodeItems_eq (items : List Item) : encodeItems items = items.flatMap encode := by
  induction items with
  | nil => rfl
  | cons item items ih => rw [encodeItems, ih, List.flatMap_cons]

theorem encodeEntries_eq (entries : List (Item × Item)) :
    encodeEntries entries = entries.flatMap fun entry => encode entry.1 ++ encode entry.2 := by
  induction entries with
  | nil => rfl
  | cons entry entries ih => rw [encodeEntries, ih, List.flatMap_cons]

/-- The encoding of an item that fits the levels is one of the ways to write it. -/
theorem Fits.written {levels : ℕ} {item : Item} (h : Fits levels item) :
    Written levels item (encode item) := by
  induction h with
  | unsigned n =>
    rw [encode]
    exact .unsigned (Head.written_encode .unsigned n.toNat_lt)
  | negative n =>
    rw [encode]
    exact .negative (Head.written_encode .negative n.toNat_lt)
  | bytes form hlength =>
    rw [encode]
    simpa using Written.bytes (form.written_encode hlength)
  | @text levels form value hlength =>
    have hwritten : Written levels (.text form (String.join [value])) _ :=
      Written.text (form.written_encode hlength)
    rw [encode]
    simpa [String.join] using hwritten
  | array hlength hitems ih =>
    rw [encode, encodeItems_eq]
    exact .of_items (Head.written_encode .array hlength) ih
  | map hlength hnames hvalues ihnames ihvalues =>
    rw [encode, encodeEntries_eq]
    exact .of_entries (Head.written_encode .map hlength) ihnames ihvalues
  | tagged tag hitem ih =>
    rw [encode]
    exact .tagged (Head.written_encode .tag tag.toNat_lt) ih
  | constant value =>
    have hcode : value.code < 24 := by cases value <;> decide
    rw [encode, Head.encode, if_pos hcode]
    exact .constant value
  | float hbits =>
    rw [encode]
    exact .float hbits

/-- The encoding of an item that fits the levels is read, whatever is behind it. -/
theorem Fits.reads_parse {levels : ℕ} {item : Item} (h : Fits levels item) :
    Reads (parse levels) (encode item) item :=
  h.written.reads_parse

/-- No proper prefix of the encoding of an item holds an item. -/
theorem Fits.parse_eq_none {levels : ℕ} {item : Item} (h : Fits levels item) {front : Bytes}
    (hfront : front <+: encode item) (hne : front ≠ encode item) : parse levels front = none :=
  h.reads_parse.eq_none (extends_parse levels) hfront hne

end Item

end Cbor

end PrivateMatching
