import PrivateMatching.Proofs.Cbor.Item
import PrivateMatching.Proofs.Context
import PrivateMatching.Proofs.Entries

/-!
# Messages survive their encoding

The encoding of a request or of a response is read back as the message, and breaks
off nowhere: no proper prefix of it is read at all (`Request.selfDelimiting`,
`Response.selfDelimiting`). The lengths in the message have to fit the heads of arrays
(`Request.IsBounded`); those in what an operation answers always do if those in the
request did (`Context.isBounded_of_run`). So it makes no difference to run an operation
on a request that was sent, nor to send the response (`Context.messages_read_back`).
-/

namespace PrivateMatching

namespace Cbor

namespace Item

/-! ## Which messages can be written -/

variable {fields : List (String × Item)} {levels : ℕ}

theorem fits_ofFields (hcount : fields.length < Head.bound) (hnames : HasShortNames fields)
    (hvalues : ∀ field ∈ fields, Fits levels field.2) : Fits (levels + 1) (ofFields fields) := by
  refine .map (by rwa [List.length_map]) (fun e he => ?_) (fun e he => ?_)
  · obtain ⟨field, hfield, rfl⟩ := List.mem_map.1 he
    exact .text .whole ((hnames field hfield).trans_lt (by decide))
  · obtain ⟨field, hfield, rfl⟩ := List.mem_map.1 he
    exact hvalues field hfield

theorem fits_ofBytes {value : Bytes} (h : value.length < Head.bound) :
    Fits (levels + 1) (ofBytes value) := by
  refine .array (by rwa [List.length_map]) fun item hitem => ?_
  obtain ⟨b, _, rfl⟩ := List.mem_map.1 hitem
  exact .unsigned _

end Item

end Cbor

open Cbor

/-- The lengths in a batch fit the heads of arrays. -/
structure Batch.IsBounded (elements : List Bytes) : Prop where
  /-- The number of elements does. -/
  count : elements.length < Head.bound
  /-- The number of bytes of each element does. -/
  widths : ∀ bytes ∈ elements, bytes.length < Head.bound

theorem Batch.IsBounded.fits {elements : List Bytes} (h : Batch.IsBounded elements)
    {levels : ℕ} : Item.Fits (levels + 2) (.ofBatch elements) := by
  refine .array (by rw [List.length_map]; exact h.count) fun item hitem => ?_
  obtain ⟨bytes, hbytes, rfl⟩ := List.mem_map.1 hitem
  exact Item.fits_ofBytes (h.widths bytes hbytes)

/-- A string is read as a message, whatever is behind it, and no proper prefix of it is
    read at all. -/
structure SelfDelimiting (parse : Bytes → Option α) (bytes : Bytes) (message : α) : Prop where
  /-- The string is read. -/
  whole : parse bytes = some message
  /-- What is behind the string is not looked at. -/
  longer : ∀ behind, parse (bytes ++ behind) = some message
  /-- What breaks off before the end of the string is refused. -/
  broken : ∀ front, front <+: bytes → front ≠ bytes → parse front = none

/-- A message that is read from an item is delimited as the item is. -/
theorem Cbor.Item.Fits.selfDelimiting {levels : ℕ} {item : Item} (h : Item.Fits levels item)
    {ofItem? : Item → Option α} {message : α} (hmessage : ofItem? item = some message) :
    SelfDelimiting (fun bytes => (Item.parse levels bytes).bind fun r => ofItem? r.1) item.encode
      message := by
  have hlonger : ∀ behind, ((Item.parse levels (item.encode ++ behind)).bind fun r =>
      ofItem? r.1) = some message := by
    intro behind
    rw [h.reads_parse behind, Option.bind_some, hmessage]
  refine ⟨by simpa using hlonger [], hlonger, fun front hfront hne => ?_⟩
  rw [h.parse_eq_none hfront hne, Option.bind_none]

/-! ## Requests and responses -/

namespace Operation

/-- The names of the fields of messages. -/
def fieldNames (op : Operation) : List String := [keyField, op.inputField, op.outputField]

theorem length_le_of_mem_fieldNames (op : Operation) :
    ∀ name ∈ op.fieldNames, (Bytes.ofText name).length ≤ Item.maxNameLength := by
  cases op <;> decide

theorem keyField_ne_inputField (op : Operation) : keyField ≠ op.inputField := by
  cases op <;> decide

end Operation

namespace Request

variable {op : Operation} {request : Request op}

/-- The lengths in a request fit the heads of arrays. -/
structure IsBounded (request : Request op) : Prop where
  /-- The number of bytes of the key does. -/
  key : request.key.length < Head.bound
  /-- The lengths in the batch do. -/
  elements : Batch.IsBounded request.elements

/-- The fields of a request and their values. -/
def fields (request : Request op) : List (String × Item) :=
  [(Operation.keyField, .ofBytes request.key), (op.inputField, .ofBatch request.elements)]

theorem forall_mem_fields (request : Request op) {P : String × Item → Prop} :
    (∀ field ∈ request.fields, P field) ↔
      P (Operation.keyField, .ofBytes request.key) ∧
        P (op.inputField, .ofBatch request.elements) := by
  rw [fields, List.forall_mem_cons, List.forall_mem_singleton]

theorem hasShortNames_fields (request : Request op) : Item.HasShortNames request.fields := by
  refine request.forall_mem_fields.2 ⟨?_, ?_⟩
  all_goals exact op.length_le_of_mem_fieldNames _ (by simp [Operation.fieldNames])

/-- A request is read from its map. -/
theorem ofItem?_toItem (request : Request op) : ofItem? request.toItem = some request := by
  have hfields : request.toItem.toFields? [Operation.keyField, op.inputField] =
      some (Item.entriesOf request.fields) :=
    Item.toFields?_ofFields_self request.hasShortNames_fields
  have hne := op.keyField_ne_inputField
  rw [ofItem?, hfields]
  simp [Item.entriesOf, fields, onlyEntry?, Bytes.ofText_inj, hne, hne.symm,
    Item.readsNumbers_toBytes?.read_write, Item.readsNumbers_toBatch?.read_write]

/-- A bounded request can be written. -/
theorem fits_toItem (h : request.IsBounded) : Item.Fits Item.maxLevels request.toItem := by
  have hvalues : ∀ field ∈ request.fields, Item.Fits (Item.maxLevels - 1) field.2 :=
    request.forall_mem_fields.2 ⟨Item.fits_ofBytes h.key, h.elements.fits⟩
  have hcount : request.fields.length < Head.bound := show 2 < Head.bound by decide
  exact Item.fits_ofFields hcount request.hasShortNames_fields hvalues

/-- A request is read from its encoding, and from no proper prefix of it. -/
theorem selfDelimiting (h : request.IsBounded) :
    SelfDelimiting ofCbor? request.toCbor request :=
  (fits_toItem h).selfDelimiting request.ofItem?_toItem

end Request

namespace Response

variable {op : Operation} {response : Response op}

/-- The fields of a response and their values. -/
def fields (response : Response op) : List (String × Item) :=
  [(op.outputField, .ofBatch response.elements)]

theorem forall_mem_fields (response : Response op) {P : String × Item → Prop} :
    (∀ field ∈ response.fields, P field) ↔ P (op.outputField, .ofBatch response.elements) := by
  rw [fields, List.forall_mem_singleton]

theorem hasShortNames_fields (response : Response op) : Item.HasShortNames response.fields :=
  response.forall_mem_fields.2 (op.length_le_of_mem_fieldNames _ (by simp [Operation.fieldNames]))

/-- A response is read from its map. -/
theorem ofItem?_toItem (response : Response op) : ofItem? response.toItem = some response := by
  have hfields : response.toItem.toFields? [op.outputField] =
      some (Item.entriesOf response.fields) :=
    Item.toFields?_ofFields_self response.hasShortNames_fields
  rw [ofItem?, hfields]
  simp [Item.entriesOf, fields, onlyEntry?, Item.readsNumbers_toBatch?.read_write]

/-- A bounded response can be written. -/
theorem fits_toItem (h : Batch.IsBounded response.elements) :
    Item.Fits Item.maxLevels response.toItem := by
  have hvalues : ∀ field ∈ response.fields, Item.Fits (Item.maxLevels - 1) field.2 :=
    response.forall_mem_fields.2 h.fits
  have hcount : response.fields.length < Head.bound := show 1 < Head.bound by decide
  exact Item.fits_ofFields hcount response.hasShortNames_fields hvalues

/-- A response is read from its encoding, and from no proper prefix of it. -/
theorem selfDelimiting (h : Batch.IsBounded response.elements) :
    SelfDelimiting ofCbor? response.toCbor response :=
  (fits_toItem h).selfDelimiting response.ofItem?_toItem

end Response

namespace Context

/-- Encoded elements are as wide as the suite says. -/
theorem length_encode (c : Context) (x : c.suite.Element) :
    (c.suite.encode x).length = c.suite.elementWidth := by
  cases c with
  | p256 => exact P256.Point.length_encode x
  | ristretto255 => exact Bytes.length_ofNatLE _ _
  | toy => exact Bytes.length_ofNatBE _ _

theorem elementWidth_lt (c : Context) : c.suite.elementWidth < Head.bound := by
  cases c <;> decide

/-- An operation answers a bounded request with a bounded response. -/
theorem isBounded_of_run (c : Context) {op : Operation} {request : Request op}
    {response : Response op} (h : request.elements.length < Head.bound)
    (hrun : Operation.run c.suite request = .ok response) : Batch.IsBounded response.elements := by
  have houtcome := (Operation.run_eq_iff_outcome c.isLawful request _).1 hrun
  cases houtcome with
  | processed hkey hxs he =>
    refine ⟨?_, fun bytes hbytes => ?_⟩
    · rwa [List.length_map, ← hxs.length_eq]
    · obtain ⟨x, _, rfl⟩ := List.mem_map.1 hbytes
      exact (c.length_encode _).trans_lt c.elementWidth_lt

/-- Messages survive their encoding. A bounded request is read from its encoding, and
    from no proper prefix of it, so an operation answers what was sent as it answers the
    request; its response is read from its encoding, as every bounded response is. -/
theorem messages_read_back (c : Context) {op : Operation} :
    (∀ request : Request op, request.IsBounded →
      SelfDelimiting Request.ofCbor? request.toCbor request ∧
      (Request.ofCbor? request.toCbor).map (fun sent : Request op => Operation.run c.suite sent) =
        some (Operation.run c.suite request) ∧
      ∀ response, Operation.run c.suite request = .ok response →
        Response.ofCbor? response.toCbor = some response) ∧
    ∀ response : Response op, Batch.IsBounded response.elements →
      SelfDelimiting Response.ofCbor? response.toCbor response := by
  refine ⟨fun request h => ⟨Request.selfDelimiting h, ?_, fun response hrun => ?_⟩,
    fun response h => Response.selfDelimiting h⟩
  · rw [(Request.selfDelimiting h).whole, Option.map_some]
  · exact (Response.selfDelimiting (c.isBounded_of_run h.elements.count hrun)).whole

/-- A request with an empty element and one whose bytes and number of bytes take wide
    heads, and the response to another. -/
theorem messages_read_back_apply :
    SelfDelimiting Request.ofCbor?
        (⟨[0, 3], [[], List.replicate 300 200]⟩ : Request .apply).toCbor
        (⟨[0, 3], [[], List.replicate 300 200]⟩ : Request .apply) ∧
      Response.ofCbor? (⟨[[0, 64]]⟩ : Response .apply).toCbor =
        some (⟨[[0, 64]]⟩ : Response .apply) ∧
      SelfDelimiting Response.ofCbor? (⟨[[]]⟩ : Response .apply).toCbor
        (⟨[[]]⟩ : Response .apply) := by
  have hwide : Batch.IsBounded [[], List.replicate 300 200] := by
    refine ⟨by decide, fun bytes hbytes => ?_⟩
    rcases List.mem_pair.1 hbytes with rfl | rfl
    · decide
    · rw [List.length_replicate]
      decide
  have hrun : Operation.run toy.suite (⟨[0, 3], [[0, 4]]⟩ : Request .apply) = .ok ⟨[[0, 64]]⟩ := rfl
  exact ⟨((messages_read_back toy).1 _ ⟨by decide, hwide⟩).1,
    ((messages_read_back toy).1 _ ⟨by decide, by decide, by decide⟩).2.2 _ hrun,
    (messages_read_back toy).2 _ ⟨by decide, by decide⟩⟩

end Context

end PrivateMatching
