import PrivateMatching.Proofs.Cbor.Parser

/-!
# How items may be written

An item may be written in many ways: heads may be wider than they have to be, strings
may be cut into chunks, and arrays and maps may go without their lengths. `Item.Written`
says of a string that it is an item in one of these ways, with arrays and maps nested to
no more than some levels. It is then read as the item, whatever is behind it
(`Item.Written.reads_parse`).
-/

namespace PrivateMatching

namespace Cbor

/-- The byte of the stop. -/
def stopByte : UInt8 := Head.firstByte .other 31

theorem reads_parse_stopByte : Reads Head.parse [stopByte] .stop :=
  Head.reads_parse_of_ofMajor? rfl

/-- The parts of an array or of a map, one behind the other, are behind a head that says
    how many they are, or between a head that does not and a stop. -/
inductive Enclosed (major : Major) (count : ℕ) (parts : Bytes) : Bytes → Prop
  /-- The parts are counted. -/
  | counted {head : Bytes} (hhead : Head.Written major count head) :
    Enclosed major count parts (head ++ parts)
  /-- The parts go on up to a stop. -/
  | stopped : Enclosed major count parts (Head.firstByte major 31 :: (parts ++ [stopByte]))

/-- Parts are no longer than what encloses them. -/
theorem Enclosed.length_le {major : Major} {count : ℕ} {parts bytes : Bytes}
    (h : Enclosed major count parts bytes) : parts.length ≤ bytes.length := by
  cases h with
  | counted => exact (List.sublist_append_right _ _).length_le
  | stopped =>
    rw [List.length_cons, List.length_append]
    omega

/-- A string is written in one piece, or in chunks up to a stop; each chunk is behind a
    head that says how many bytes it has. -/
inductive Form.Written (major : Major) : Form → (chunks : List Bytes) → Bytes → Prop
  /-- There is one piece. -/
  | whole {value head : Bytes} (hhead : Head.Written major value.length head) :
    Form.Written major .whole [value] (head ++ value)
  /-- There are chunks, each given with its head. -/
  | chunked {chunks : List (Bytes × Bytes)}
    (hheads : ∀ chunk ∈ chunks, Head.Written major chunk.1.length chunk.2) :
    Form.Written major .chunked (chunks.map Prod.fst)
      (Head.firstByte major 31 ::
        (chunks.flatMap (fun chunk => chunk.2 ++ chunk.1) ++ [stopByte]))

/-- The number of bytes of a floating-point number. -/
def FloatWidth.size : FloatWidth → ℕ
  | .half => 2
  | .single => 4
  | .double => 8

namespace Item

/-- A string is an item, with arrays and maps nested to some levels. The parts of arrays
    and maps are given with their strings. -/
inductive Written : (levels : ℕ) → Item → Bytes → Prop
  /-- The argument of the head is the number. -/
  | unsigned {levels : ℕ} {n : UInt64} {head : Bytes}
    (hhead : Head.Written .unsigned n.toNat head) : Written levels (.unsigned n) head
  /-- The argument of the head is the number, counted down from -1. -/
  | negative {levels : ℕ} {n : UInt64} {head : Bytes}
    (hhead : Head.Written .negative n.toNat head) : Written levels (.negative n) head
  /-- The chunks make up the byte string. -/
  | bytes {levels : ℕ} {form : Form} {chunks : List Bytes} {bytes : Bytes}
    (hform : form.Written .bytes chunks bytes) : Written levels (.bytes form chunks.flatten) bytes
  /-- The chunks are texts by themselves, and make up the text. -/
  | text {levels : ℕ} {form : Form} {chunks : List String} {bytes : Bytes}
    (hform : form.Written .text (chunks.map Bytes.ofText) bytes) :
    Written levels (.text form (String.join chunks)) bytes
  /-- The parts of an array are a level less. -/
  | array {levels : ℕ} {parts : List (Item × Bytes)} {bytes : Bytes}
    (hparts : ∀ part ∈ parts, Written levels part.1 part.2)
    (hbytes : Enclosed .array parts.length (parts.flatMap Prod.snd) bytes) :
    Written (levels + 1) (.array (parts.map Prod.fst)) bytes
  /-- The names and the values of a map are a level less. -/
  | map {levels : ℕ} {parts : List ((Item × Item) × (Bytes × Bytes))} {bytes : Bytes}
    (hnames : ∀ part ∈ parts, Written levels part.1.1 part.2.1)
    (hvalues : ∀ part ∈ parts, Written levels part.1.2 part.2.2)
    (hbytes : Enclosed .map parts.length (parts.flatMap fun part => part.2.1 ++ part.2.2) bytes) :
    Written (levels + 1) (.map (parts.map Prod.fst)) bytes
  /-- A tag takes no level. -/
  | tagged {levels : ℕ} {tag : UInt64} {item : Item} {head bytes : Bytes}
    (hhead : Head.Written .tag tag.toNat head) (hitem : Written levels item bytes) :
    Written levels (.tagged tag item) (head ++ bytes)
  /-- The code of a constant is in the first byte. -/
  | constant {levels : ℕ} (value : Constant) :
    Written levels (.constant value) [Head.firstByte .other (UInt8.ofNat value.code)]
  /-- The bits are no more than the width has. -/
  | float {levels : ℕ} {width : FloatWidth} {bits : UInt64}
    (hbits : bits.toNat < 256 ^ width.size) : Written levels (.float width bits) (width.encode bits)

/-- An array is written item by item behind the number of its items. -/
theorem Written.of_items {levels : ℕ} {items : List Item} {encode : Item → Bytes} {head : Bytes}
    (hhead : Head.Written .array items.length head)
    (hitems : ∀ item ∈ items, Written levels item (encode item)) :
    Written (levels + 1) (.array items) (head ++ items.flatMap encode) := by
  have hparts : ∀ part ∈ items.map fun item => (item, encode item), Written levels part.1 part.2 :=
    List.forall_mem_map.2 hitems
  have hwritten := Written.array hparts (.counted (by rwa [List.length_map]))
  simpa [Function.comp_def, List.flatMap_map] using hwritten

/-- A map is written entry by entry behind the number of its entries. -/
theorem Written.of_entries {levels : ℕ} {entries : List (Item × Item)} {encode : Item → Bytes}
    {head : Bytes} (hhead : Head.Written .map entries.length head)
    (hnames : ∀ entry ∈ entries, Written levels entry.1 (encode entry.1))
    (hvalues : ∀ entry ∈ entries, Written levels entry.2 (encode entry.2)) :
    Written (levels + 1) (.map entries)
      (head ++ entries.flatMap fun entry => encode entry.1 ++ encode entry.2) := by
  have hnames' : ∀ part ∈ entries.map fun entry => (entry, (encode entry.1, encode entry.2)),
      Written levels part.1.1 part.2.1 := List.forall_mem_map.2 hnames
  have hvalues' : ∀ part ∈ entries.map fun entry => (entry, (encode entry.1, encode entry.2)),
      Written levels part.1.2 part.2.2 := List.forall_mem_map.2 hvalues
  have hwritten := Written.map hnames' hvalues' (.counted (by rwa [List.length_map]))
  simpa [Function.comp_def, List.flatMap_map] using hwritten

/-! ## Bodies -/

section Body

variable {limit : ℕ} {nested : Option (Reader Item)} {front bytes : Bytes} {head : Head}
  {item : Item} {major : Major}

/-- A head that is no tag is read with what is behind it. -/
theorem reads_parseTagged (hhead : Reads Head.parse front head) (htag : head.tag? = none)
    (hbody : Reads (parseBody limit nested head) bytes item) :
    Reads (parseTagged limit nested) (front ++ bytes) item := by
  intro rest
  rw [List.append_assoc]
  exact parseTagged_of_parseTags (parseTags_of_ne (hhead _) htag limit) (hhead _) (hbody rest)

/-- A head that is an item by itself is read. -/
theorem reads_parseTagged_of_head (hhead : Reads Head.parse front head) (htag : head.tag? = none)
    (hbody : Reads (parseBody limit nested head) [] item) :
    Reads (parseTagged limit nested) front item := by
  simpa using reads_parseTagged hhead htag hbody

/-- Chunks are read up to the stop, within a limit that their bytes are below. -/
theorem reads_parseChunks {chunks : List (Bytes × Bytes)}
    (hheads : ∀ chunk ∈ chunks, Head.Written major chunk.1.length chunk.2)
    (hlimit : (chunks.flatMap fun chunk => chunk.2 ++ chunk.1).length < limit) :
    Reads (parseChunks major limit 0)
      (chunks.flatMap (fun chunk => chunk.2 ++ chunk.1) ++ [stopByte]) (chunks.map Prod.fst) := by
  obtain ⟨limit, rfl⟩ : ∃ n, limit = n + 1 := ⟨limit - 1, by omega⟩
  induction chunks generalizing limit with
  | nil =>
    rw [parseChunks_succ]
    exact reads_parse_stopByte.andThen (reads_give [])
  | cons chunk chunks ih =>
    obtain ⟨hhead, hheads⟩ := List.forall_mem_cons.1 hheads
    have hpos := hhead.length_pos
    rw [List.flatMap_cons, List.length_append, List.length_append] at hlimit
    obtain ⟨limit, rfl⟩ : ∃ n, limit = n + 1 := ⟨limit - 1, by omega⟩
    obtain ⟨width, hread⟩ := hhead.exists_reads_parse
    rw [List.flatMap_cons, List.append_assoc, List.append_assoc, parseChunks_succ]
    refine hread.andThen ?_
    simp only [chunksBehind, if_true]
    exact (reads_splitAt? chunk.1).andThen ((ih hheads limit (by omega)).andThen_give rfl)

/-- What reads back each part reads back all of them. -/
theorem mapM_map_eq_some {α β : Type} {write : α → β} {read : β → Option α}
    (h : ∀ a, read (write a) = some a) (as : List α) : (as.map write).mapM read = some as := by
  have hread : read ∘ write = fun a => pure (id a) := funext h
  rw [List.mapM_map, hread, List.mapM_pure, List.map_id]
  rfl

theorem textOfChunks?_map_ofText (chunks : List String) :
    textOfChunks? (chunks.map Bytes.ofText) = some (String.join chunks) := by
  rw [textOfChunks?, mapM_map_eq_some Bytes.toText?_ofText, Option.map_some]

/-- A byte string is read, in one piece or in chunks. -/
theorem reads_parseTagged_bytes {form : Form} {chunks : List Bytes}
    (h : form.Written .bytes chunks bytes) (hlimit : bytes.length ≤ limit) :
    Reads (parseTagged limit nested) bytes (.bytes form chunks.flatten) := by
  cases h with
  | @whole value _ hhead =>
    obtain ⟨width, hread⟩ := hhead.exists_reads_parse
    rw [List.flatten_singleton]
    exact reads_parseTagged hread rfl ((reads_splitAt? value).map (Item.bytes .whole))
  | chunked hheads =>
    rw [List.length_cons, List.length_append, List.length_singleton] at hlimit
    have hchunks : Reads (parseChunks .bytes limit 0) _ _ := reads_parseChunks hheads (by omega)
    have hbody : Reads (parseBody limit nested (.endless .bytes)) _ (.bytes .chunked _) :=
      hchunks.map fun chunks => Item.bytes .chunked chunks.flatten
    exact reads_parseTagged (Head.reads_parse_of_ofMajor? rfl) rfl hbody

/-- A text is read, in one piece or in chunks. -/
theorem reads_parseTagged_text {form : Form} {chunks : List String}
    (h : form.Written .text (chunks.map Bytes.ofText) bytes) (hlimit : bytes.length ≤ limit) :
    Reads (parseTagged limit nested) bytes (.text form (String.join chunks)) := by
  generalize hpieces : chunks.map Bytes.ofText = pieces at h
  cases h with
  | whole hhead =>
    obtain ⟨value, rfl, rfl⟩ := List.map_eq_singleton_iff.1 hpieces
    obtain ⟨width, hread⟩ := hhead.exists_reads_parse
    have hjoin : String.join [value] = value := by simp [String.join]
    refine reads_parseTagged hread rfl ?_
    rw [parseBody_text, hjoin]
    exact (reads_splitAt? _).andThen_give (by rw [Bytes.toText?_ofText, Option.map_some])
  | chunked hheads =>
    rw [List.length_cons, List.length_append, List.length_singleton] at hlimit
    have hchunks : Reads (parseChunks .text limit 0) _ _ := reads_parseChunks hheads (by omega)
    rw [← hpieces] at hchunks
    refine reads_parseTagged (Head.reads_parse_of_ofMajor? rfl) rfl ?_
    rw [parseBody_text_chunked]
    exact hchunks.andThen_give (by rw [textOfChunks?_map_ofText, Option.map_some])

/-- Parts that are read are read where they are enclosed, if they are read in turn behind
    both heads. -/
theorem reads_parseTagged_of_enclosed {ι α : Type} {parts : List ι} {encode : ι → Bytes}
    {value : ι → α} {p : Reader α} {make : List α → Item}
    (h : Enclosed major parts.length (parts.flatMap encode) bytes)
    (hparts : ∀ part ∈ parts, Reads p (encode part) (value part)) (hp : RefusesStop p)
    (hlimit : bytes.length ≤ limit) (hmajor : Head.ofMajor? major = some (.endless major))
    (hcounted : ∀ width count, parseBody limit nested (.sized major width count) =
      fun rest => (parseMany p count rest).map fun r => (make r.1, r.2))
    (hstopped : parseBody limit nested (.endless major) =
      fun rest => (parseToStop p limit rest).map fun r => (make r.1, r.2)) :
    Reads (parseTagged limit nested) bytes (make (parts.map value)) := by
  cases h with
  | counted hhead =>
    obtain ⟨width, hread⟩ := hhead.exists_reads_parse
    have htag : (Head.sized major width parts.length).tag? = none := by
      cases major <;> first | rfl | cases hmajor
    refine reads_parseTagged hread htag ?_
    rw [hcounted]
    exact (Reads.parseMany hparts).map make
  | stopped =>
    rw [List.length_cons, List.length_append, List.length_singleton] at hlimit
    refine reads_parseTagged (Head.reads_parse_of_ofMajor? hmajor) rfl ?_
    rw [hstopped]
    exact (Reads.parseToStop hparts reads_parse_stopByte hp (by omega)).map make

/-- A floating-point number is read. -/
theorem reads_parseTagged_float {width : FloatWidth} {bits : UInt64}
    (h : bits.toNat < 256 ^ width.size) :
    Reads (parseTagged limit nested) (width.encode bits) (.float width bits) := by
  have hhead : Reads Head.parse (width.encode bits) (.sized .other width.size bits.toNat) := by
    cases width with
    | half =>
      exact Head.reads_parse_of_width .other (show Head.widthOfInfo 25 = some 2 from rfl) h
    | single =>
      exact Head.reads_parse_of_width .other (show Head.widthOfInfo 26 = some 4 from rfl) h
    | double =>
      exact Head.reads_parse_of_width .other (show Head.widthOfInfo 27 = some 8 from rfl) h
  refine reads_parseTagged_of_head hhead rfl fun rest => ?_
  cases width <;> simp [parseBody, ofOther?, FloatWidth.size]

/-- A constant is read. -/
theorem reads_parseTagged_constant (value : Constant) :
    Reads (parseTagged limit nested) [Head.firstByte .other (UInt8.ofNat value.code)]
      (.constant value) := by
  have hcode : value.code < 24 := by cases value <;> decide
  refine reads_parseTagged_of_head (Head.reads_parse_of_info .other hcode) rfl fun rest => ?_
  cases value <;> rfl

end Body

/-! ## Items -/

section Within

variable {limit levels : ℕ}

/-- A part is no longer than all parts. -/
theorem length_le_length_flatMap {α : Type} (encode : α → Bytes) {values : List α} {value : α}
    (h : value ∈ values) : (encode value).length ≤ (values.flatMap encode).length :=
  (List.sublist_flatten_of_mem (List.mem_map_of_mem h)).length_le

/-- What is written as an item is read as the item, within its own length. -/
theorem Written.reads_parseWithin {item : Item} {bytes : Bytes} (h : Written levels item bytes)
    (hlimit : bytes.length ≤ limit) : Reads (parseWithin limit levels) bytes item := by
  induction h generalizing limit with
  | unsigned hhead =>
    obtain ⟨width, hread⟩ := hhead.exists_reads_parse
    rw [parseWithin_eq]
    exact reads_parseTagged_of_head hread rfl fun rest => by simp [parseBody]
  | negative hhead =>
    obtain ⟨width, hread⟩ := hhead.exists_reads_parse
    rw [parseWithin_eq]
    exact reads_parseTagged_of_head hread rfl fun rest => by simp [parseBody]
  | bytes hform =>
    rw [parseWithin_eq]
    exact reads_parseTagged_bytes hform hlimit
  | text hform =>
    rw [parseWithin_eq]
    exact reads_parseTagged_text hform hlimit
  | array hparts hbytes ih =>
    have hle := hbytes.length_le
    rw [parseWithin_eq]
    refine reads_parseTagged_of_enclosed hbytes (fun part hpart => ih part hpart ?_)
      (refusesStop_parseWithin limit _) hlimit rfl (fun _ _ => rfl) rfl
    have := length_le_length_flatMap Prod.snd hpart
    omega
  | map hnames hvalues hbytes ihnames ihvalues =>
    have hle := hbytes.length_le
    rw [parseWithin_eq]
    refine reads_parseTagged_of_enclosed hbytes (fun part hpart => ?_)
      (refusesStop_parseWithin limit _).parsePair hlimit rfl (fun _ _ => rfl) rfl
    have hpair := length_le_length_flatMap (fun part => part.2.1 ++ part.2.2) hpart
    rw [List.length_append] at hpair
    exact (ihnames part hpart (by omega)).parsePair (ihvalues part hpart (by omega))
  | tagged hhead hitem ih =>
    have hpos := hhead.length_pos
    obtain ⟨width, hread⟩ := hhead.exists_reads_parse
    rw [List.length_append] at hlimit
    intro rest
    rw [List.append_assoc]
    exact parseWithin_of_tag (hread _) (by simp [Head.tag?]) (ih le_rfl rest) (by omega)
  | constant value =>
    rw [parseWithin_eq]
    exact reads_parseTagged_constant value
  | float hbits =>
    rw [parseWithin_eq]
    exact reads_parseTagged_float hbits

/-- What is written as an item is read as the item, whatever is behind it. -/
theorem Written.reads_parse {item : Item} {bytes : Bytes} (h : Written levels item bytes) :
    Reads (parse levels) bytes item :=
  fun rest => h.reads_parseWithin (by simp) rest

/-- What is written as an item, with nothing behind it, is read to its end. -/
theorem Written.parse_eq {item : Item} {bytes : Bytes} (h : Written levels item bytes) :
    parse levels bytes = some (item, []) := by
  simpa using h.reads_parse []

end Within

end Item

end Cbor

end PrivateMatching
