import PrivateMatching.Proofs.Message

/-!
# Messages are read by their fields

A map of entries is read as a message of a type if it is written in any of the ways to
write items, and the entries of the fields are arrays of numbers (`MessageType.Admits`).
What is read depends on the entries of the fields only, in any order, and not on the other
entries (`MessageType.Admits.ofCbor?_eq_some_iff`, `MessageType.Admits.ofCbor?_congr`).
So the encoding of a message is also read as any message whose fields are among its own
(`MessageType.reads_only_fields`).
-/

namespace PrivateMatching

open Cbor

/-! ## Types of messages -/

/-- The types of messages. -/
inductive MessageType where
  /-- The requests of an operation. -/
  | request (op : Operation)
  /-- The responses of an operation. -/
  | response (op : Operation)

namespace MessageType

/-- The messages of a type. -/
abbrev Message : MessageType → Type
  | .request op => Request op
  | .response op => Response op

/-- The CBOR string of a message. -/
def toCbor : (T : MessageType) → T.Message → Bytes
  | .request _, m => Request.toCbor m
  | .response _, m => Response.toCbor m

/-- Reads a message of a type. -/
def ofCbor? : (T : MessageType) → Bytes → Option T.Message
  | .request _, bytes => Request.ofCbor? bytes
  | .response _, bytes => Response.ofCbor? bytes

/-- The names of the fields of the messages of a type. -/
def fieldNames : MessageType → List String
  | .request op => [Operation.keyField, op.inputField]
  | .response op => [op.outputField]

/-- The fields of a message and their values. -/
def fields : (T : MessageType) → T.Message → List (String × Item)
  | .request _, m => Request.fields m
  | .response _, m => Response.fields m

/-- The lengths in a message fit the heads of arrays. -/
def IsBounded : (T : MessageType) → T.Message → Prop
  | .request _, m => Request.IsBounded m
  | .response _, m => Batch.IsBounded (Response.elements m)

/-- How deep the arrays of numbers in a field are: a key is one byte string, and anything
    else is a batch. -/
def fieldDepth (name : String) : ℕ := if name = Operation.keyField then 1 else 2

/-- The entries of a map may be read as a message of a type: in its fields, there are
    arrays of numbers, and in others anything without a tag. -/
structure Admits (T : MessageType) (entries : List (String × Item)) : Prop where
  /-- The names are not too long to be read. -/
  names : Item.HasShortNames entries
  /-- What has the name of a field has the depth of the field. -/
  own : ∀ entry ∈ entries, entry.1 ∈ T.fieldNames → Item.IsNumbers (fieldDepth entry.1) entry.2
  /-- There are no tags in what has another name. -/
  others : ∀ entry ∈ entries, entry.1 ∉ T.fieldNames → Item.TagFree entry.2

end MessageType

open Item

section

variable {op : Operation}

theorem Request.ofCbor?_of_written {item : Item} {bytes : Bytes}
    (h : Written maxLevels item bytes) :
    (ofCbor? bytes : Option (Request op)) = ofItem? item := by
  rw [ofCbor?, h.parse_eq]
  rfl

theorem Response.ofCbor?_of_written {item : Item} {bytes : Bytes}
    (h : Written maxLevels item bytes) :
    (ofCbor? bytes : Option (Response op)) = ofItem? item := by
  rw [ofCbor?, h.parse_eq]
  rfl

theorem Request.ofItem?_eq_some_iff {item : Item} {entries : List (Bytes × Item)}
    (h : item.toFields? [Operation.keyField, op.inputField] = some entries)
    {request : Request op} :
    Request.ofItem? item = some request ↔
      onlyEntry? Operation.keyField entries >>= toBytes? = some request.key ∧
        onlyEntry? op.inputField entries >>= toBatch? = some request.elements := by
  simp only [ofItem?, h, Option.bind_eq_bind, Option.bind_some]
  cases onlyEntry? Operation.keyField entries with
  | none => simp
  | some key =>
    cases onlyEntry? op.inputField entries with
    | none => simp
    | some elements =>
      simp only [Option.bind_some]
      cases request
      cases key.toBytes? <;> cases elements.toBatch? <;> simp

theorem Response.ofItem?_eq_some_iff {item : Item} {entries : List (Bytes × Item)}
    (h : item.toFields? [op.outputField] = some entries) {response : Response op} :
    Response.ofItem? item = some response ↔
      onlyEntry? op.outputField entries >>= toBatch? = some response.elements := by
  simp only [ofItem?, h, Option.bind_eq_bind, Option.bind_some]
  cases onlyEntry? op.outputField entries with
  | none => simp
  | some elements =>
    simp only [Option.bind_some]
    cases response
    cases elements.toBatch? <;> simp

end

namespace MessageType

variable {T : MessageType} {entries entries' : List (String × Item)} {bytes bytes' : Bytes}

theorem fieldDepth_keyField : fieldDepth Operation.keyField = 1 := rfl

theorem fieldDepth_inputField (op : Operation) : fieldDepth op.inputField = 2 :=
  if_neg op.keyField_ne_inputField.symm

theorem fieldDepth_outputField (op : Operation) : fieldDepth op.outputField = 2 := by
  cases op <;> decide

theorem Admits.isNumbers (h : T.Admits entries) {name : String} {depth : ℕ}
    (hname : name ∈ T.fieldNames) (hdepth : fieldDepth name = depth) :
    ∀ entry ∈ entries, entry.1 = name → IsNumbers depth entry.2 := by
  rintro entry hentry rfl
  exact hdepth ▸ h.own entry hentry hname

/-- Entries that are written as a map are read, as what is of no interest may be passed
    over. -/
theorem Admits.toFields? (h : T.Admits entries)
    (hbytes : Written maxLevels (ofFields entries) bytes) :
    (ofFields entries).toFields? T.fieldNames = some (entriesOf entries) := by
  refine toFields?_ofFields h.names fun field hfield hname => ?_
  have hwritten : Written (maxEntryLevels + 1) (ofFields entries) bytes := hbytes
  obtain ⟨value, hvalue⟩ := hwritten.exists_of_map (entry field.1 field.2)
    (List.mem_map_of_mem (f := fun field : String × Item => entry field.1 field.2) hfield)
  exact hvalue.skippable (h.others field hfield hname)

/-- A map is read as the message that the only entries of the fields hold. -/
theorem Admits.ofCbor?_eq_some_iff (h : T.Admits entries)
    (hbytes : Written maxLevels (ofFields entries) bytes) {m : T.Message} :
    T.ofCbor? bytes = some m ↔ ∀ field ∈ T.fields m, entriesNamed field.1 entries = [field] := by
  have hfields := h.toFields? hbytes
  cases T with
  | request op =>
    have hkey := h.isNumbers (by simp [fieldNames]) fieldDepth_keyField
    have hinput := h.isNumbers (by simp [fieldNames]) (fieldDepth_inputField op)
    rw [ofCbor?, Request.ofCbor?_of_written hbytes, Request.ofItem?_eq_some_iff hfields,
      readsNumbers_toBytes?.read_eq_some_iff hkey, readsNumbers_toBatch?.read_eq_some_iff hinput,
      fields, Request.forall_mem_fields]
  | response op =>
    have houtput := h.isNumbers (by simp [fieldNames]) (fieldDepth_outputField op)
    rw [ofCbor?, Response.ofCbor?_of_written hbytes, Response.ofItem?_eq_some_iff hfields,
      readsNumbers_toBatch?.read_eq_some_iff houtput, fields, Response.forall_mem_fields]

/-- Some message is read if there is one entry of each field, and the numbers in these are
    bytes. -/
theorem Admits.exists_ofCbor?_iff (h : T.Admits entries)
    (hbytes : Written maxLevels (ofFields entries) bytes) :
    (∃ m, T.ofCbor? bytes = some m) ↔
      ∀ name ∈ T.fieldNames, (entries.map Prod.fst).count name = 1 ∧
        ∀ entry ∈ entries, entry.1 = name → HasByteNumbers entry.2 := by
  simp only [h.ofCbor?_eq_some_iff hbytes]
  cases T with
  | request op =>
    have hkey := h.isNumbers (by simp [fieldNames]) fieldDepth_keyField
    have hinput := h.isNumbers (by simp [fieldNames]) (fieldDepth_inputField op)
    rw [fieldNames, List.forall_mem_cons, List.forall_mem_singleton,
      ← readsNumbers_toBytes?.exists_entriesNamed hkey,
      ← readsNumbers_toBatch?.exists_entriesNamed hinput]
    constructor
    · rintro ⟨m, hm⟩
      obtain ⟨hkey, helements⟩ := (Request.forall_mem_fields _).1 hm
      exact ⟨⟨m.key, hkey⟩, ⟨m.elements, helements⟩⟩
    · rintro ⟨⟨key, hkey⟩, ⟨elements, helements⟩⟩
      exact ⟨⟨key, elements⟩, (Request.forall_mem_fields _).2 ⟨hkey, helements⟩⟩
  | response op =>
    have houtput := h.isNumbers (by simp [fieldNames]) (fieldDepth_outputField op)
    rw [fieldNames, List.forall_mem_singleton,
      ← readsNumbers_toBatch?.exists_entriesNamed houtput]
    constructor
    · rintro ⟨m, hm⟩
      exact ⟨m.elements, (Response.forall_mem_fields _).1 hm⟩
    · rintro ⟨elements, helements⟩
      exact ⟨⟨elements⟩, (Response.forall_mem_fields _).2 helements⟩

/-! ## Messages of other types -/

section Sent

variable (S : MessageType) (m : S.Message)

theorem map_fst_fields : (S.fields m).map Prod.fst = S.fieldNames := by
  cases S <;> rfl

theorem nodup_fieldNames : S.fieldNames.Nodup := by
  cases S with
  | request op => simpa [fieldNames] using op.keyField_ne_inputField
  | response op => exact List.nodup_singleton _

/-- The fields of a message hold numbers of their depth, which are bytes. -/
theorem isNumbers_fields :
    ∀ field ∈ S.fields m, IsNumbers (fieldDepth field.1) field.2 ∧ HasByteNumbers field.2 := by
  cases S with
  | request op =>
    refine (Request.forall_mem_fields _).2 ⟨⟨?_, ?_⟩, ?_, ?_⟩
    · exact readsNumbers_toBytes?.isNumbers _
    · exact readsNumbers_toBytes?.hasByteNumbers _
    · exact fieldDepth_inputField op ▸ readsNumbers_toBatch?.isNumbers _
    · exact readsNumbers_toBatch?.hasByteNumbers _
  | response op =>
    refine (Response.forall_mem_fields _).2 ⟨?_, ?_⟩
    · exact fieldDepth_outputField op ▸ readsNumbers_toBatch?.isNumbers _
    · exact readsNumbers_toBatch?.hasByteNumbers _

/-- The fields of a message of one type may be read as one of any other type. -/
theorem admits_fields (T : MessageType) : T.Admits (S.fields m) where
  names := by
    cases S with
    | request op => exact Request.hasShortNames_fields m
    | response op => exact Response.hasShortNames_fields m
  own entry hentry _ := (S.isNumbers_fields m entry hentry).1
  others entry hentry _ := (S.isNumbers_fields m entry hentry).1.tagFree

theorem written_toCbor (h : S.IsBounded m) :
    Written maxLevels (ofFields (S.fields m)) (S.toCbor m) := by
  cases S with
  | request op => exact (Request.fits_toItem h).written
  | response op => exact (Response.fits_toItem h).written

end Sent

/-- Maps with the same entries of the fields, in any order, are read alike. -/
theorem Admits.ofCbor?_congr (h : T.Admits entries) (h' : T.Admits entries')
    (hbytes : Written maxLevels (ofFields entries) bytes)
    (hbytes' : Written maxLevels (ofFields entries') bytes')
    (hperm : ∀ name ∈ T.fieldNames,
      (entriesNamed name entries').Perm (entriesNamed name entries)) :
    T.ofCbor? bytes' = T.ofCbor? bytes := by
  refine Option.ext fun m => ?_
  rw [h'.ofCbor?_eq_some_iff hbytes', h.ofCbor?_eq_some_iff hbytes]
  refine forall₂_congr fun field hfield => ?_
  have hname : field.1 ∈ T.fieldNames := T.map_fst_fields m ▸ List.mem_map_of_mem hfield
  rw [← List.perm_singleton, ← List.perm_singleton]
  exact ⟨(hperm _ hname).symm.trans, (hperm _ hname).trans⟩

/-- The encoding of a message of one type is read as one of another type if the names of
    the fields are among those of the message. -/
theorem exists_ofCbor?_toCbor_iff (S T : MessageType) {m : S.Message} (h : S.IsBounded m) :
    (∃ m', T.ofCbor? (S.toCbor m) = some m') ↔ T.fieldNames ⊆ S.fieldNames := by
  rw [(S.admits_fields m T).exists_ofCbor?_iff (S.written_toCbor m h), map_fst_fields]
  constructor
  · intro hnames name hname
    exact List.one_le_count_iff.1 (hnames name hname).1.ge
  · intro hsubset name hname
    exact ⟨List.count_eq_one_of_mem S.nodup_fieldNames (hsubset hname),
      fun entry hentry _ => (S.isNumbers_fields m entry hentry).2⟩

/-- The encoding of a message of one type is read as the message of another type whose
    fields are among those of the message. -/
theorem ofCbor?_toCbor_eq_some_iff (S T : MessageType) {m : S.Message} (h : S.IsBounded m)
    {m' : T.Message} : T.ofCbor? (S.toCbor m) = some m' ↔ T.fields m' ⊆ S.fields m := by
  have hnodup : ((S.fields m).map Prod.fst).Nodup := by
    rw [map_fst_fields]
    exact S.nodup_fieldNames
  rw [(S.admits_fields m T).ofCbor?_eq_some_iff (S.written_toCbor m h)]
  exact forall₂_congr fun field _ => entriesNamed_eq_singleton_iff hnodup

/-- Reading a message depends on the entries of its fields only. A map is read if there is
    one entry of each field, and the numbers in these are bytes; then the message is what
    these entries hold. So maps with the same entries of the fields are read alike, whatever
    the order, the other entries and the ways of writing are. The encoding of a message of
    one type is read as a message of another if the names of the fields are among those of
    the message, and gives the values there: requests to re-apply and to decrypt may stand
    for each other. -/
theorem reads_only_fields :
    (∀ (T : MessageType) (entries : List (String × Item)) (bytes : Bytes), T.Admits entries →
      Written maxLevels (ofFields entries) bytes →
      ((∃ m, T.ofCbor? bytes = some m) ↔
        ∀ name ∈ T.fieldNames, (entries.map Prod.fst).count name = 1 ∧
          ∀ entry ∈ entries, entry.1 = name → HasByteNumbers entry.2) ∧
      (∀ m, T.ofCbor? bytes = some m ↔
        ∀ field ∈ T.fields m, entriesNamed field.1 entries = [field]) ∧
      ∀ (entries' : List (String × Item)) (bytes' : Bytes), T.Admits entries' →
        Written maxLevels (ofFields entries') bytes' →
        (∀ name ∈ T.fieldNames, (entriesNamed name entries').Perm (entriesNamed name entries)) →
        T.ofCbor? bytes' = T.ofCbor? bytes) ∧
    (∀ (S T : MessageType) (m : S.Message), S.IsBounded m →
      ((∃ m', T.ofCbor? (S.toCbor m) = some m') ↔ T.fieldNames ⊆ S.fieldNames) ∧
      ∀ m', T.ofCbor? (S.toCbor m) = some m' ↔ T.fields m' ⊆ S.fields m) ∧
    (∀ request : Request .reapply, request.IsBounded →
      Request.ofCbor? request.toCbor =
        some (⟨request.key, request.elements⟩ : Request .decrypt)) ∧
    ∀ request : Request .decrypt, request.IsBounded →
      Request.ofCbor? request.toCbor =
        some (⟨request.key, request.elements⟩ : Request .reapply) := by
  refine ⟨fun T entries bytes h hbytes => ⟨h.exists_ofCbor?_iff hbytes,
      fun m => h.ofCbor?_eq_some_iff hbytes,
      fun entries' bytes' h' hbytes' => h.ofCbor?_congr h' hbytes hbytes'⟩,
    fun S T m h => ⟨exists_ofCbor?_toCbor_iff S T h, fun m' => ofCbor?_toCbor_eq_some_iff S T h⟩,
    fun request h => ?_, fun request h => ?_⟩
  · exact (ofCbor?_toCbor_eq_some_iff (.request .reapply) (.request .decrypt) h).2
      (List.Subset.refl _)
  · exact (ofCbor?_toCbor_eq_some_iff (.request .decrypt) (.request .reapply) h).2
      (List.Subset.refl _)

/-- The entries of a request in reverse order, among notes. -/
def noted : List (String × Item) :=
  [("note", .map [(.unsigned 7, .text .whole "seven")]), ("plaintexts", ofBatch [[0, 4]]),
    ("encryption_key", ofBytes [0, 3]), ("note", .unsigned 300)]

/-- A map of these entries, whose number is in a byte of its own. -/
def notedBytes : Bytes :=
  (Head.firstByte .map 24 :: Bytes.ofNatBE 1 4) ++
    (noted.map fun field => entry field.1 field.2).flatMap fun entry =>
      encode entry.1 ++ encode entry.2

theorem admits_noted : (request .apply).Admits noted where
  names := show ∀ field ∈ noted, (Bytes.ofText field.1).length ≤ maxNameLength by decide
  own := by
    simp only [noted, List.forall_mem_cons]
    exact ⟨fun h => absurd h (by decide), fun _ => readsNumbers_toBatch?.isNumbers _,
      fun _ => readsNumbers_toBytes?.isNumbers _, fun h => absurd h (by decide), by simp⟩
  others := by
    simp only [noted, List.forall_mem_cons]
    exact ⟨fun _ => .map (List.forall_mem_singleton.2 (.unsigned 7))
        (List.forall_mem_singleton.2 (.text .whole "seven")),
      fun h => absurd (by decide) h, fun h => absurd (by decide) h, fun _ => .unsigned 300, by simp⟩

theorem written_noted : Written maxLevels (ofFields noted) notedBytes := by
  have hhead : Head.Written .map noted.length (Head.firstByte .map 24 :: Bytes.ofNatBE 1 4) :=
    .behind (show Head.widthOfInfo 24 = some 1 from rfl) (by decide)
  have hvalues : ∀ field ∈ noted, Fits maxEntryLevels field.2 := by
    simp only [noted, List.forall_mem_cons]
    exact ⟨.map (by decide) (List.forall_mem_singleton.2 (.unsigned 7))
        (List.forall_mem_singleton.2 (.text .whole (by decide))),
      Batch.IsBounded.fits ⟨by decide, by decide⟩, fits_ofBytes (by decide), .unsigned 300, by simp⟩
  refine .of_entries hhead (List.forall_mem_map.2 fun field hfield => ?_)
    (List.forall_mem_map.2 fun field hfield => (hvalues field hfield).written)
  exact (Fits.text .whole ((admits_noted.names field hfield).trans_lt (by decide))).written

/-- A request among notes is read as the request alone is. -/
theorem reads_only_fields_noted :
    Request.ofCbor? notedBytes = some (⟨[0, 3], [[0, 4]]⟩ : Request .apply) ∧
      Request.ofCbor? (⟨[0, 3], [[0, 4]]⟩ : Request .apply).toCbor =
        (Request.ofCbor? notedBytes : Option (Request .apply)) ∧
      Response.ofCbor? (⟨[0, 3], [[0, 4]]⟩ : Request .reapply).toCbor =
        some (⟨[[0, 4]]⟩ : Response .apply) ∧
      Request.ofCbor? (⟨[0, 3], [[0, 4]]⟩ : Request .reapply).toCbor =
        some (⟨[0, 3], [[0, 4]]⟩ : Request .decrypt) ∧
      Request.ofCbor? (⟨[0, 3], [[0, 4]]⟩ : Request .decrypt).toCbor =
        some (⟨[0, 3], [[0, 4]]⟩ : Request .reapply) := by
  have hbatch : Batch.IsBounded [[0, 4]] := ⟨by decide, by decide⟩
  obtain ⟨hreads, hsent, hreapply, hdecrypt⟩ := reads_only_fields
  obtain ⟨_, hnoted, hcongr⟩ := hreads (.request .apply) noted notedBytes admits_noted written_noted
  refine ⟨(hnoted _).2 ((Request.forall_mem_fields _).2 ⟨rfl, rfl⟩), ?_, ?_,
    hreapply _ ⟨by decide, hbatch⟩, hdecrypt _ ⟨by decide, hbatch⟩⟩
  · refine hcongr _ _ (admits_fields (.request .apply) _ _)
      (written_toCbor (.request .apply) _ ⟨by decide, hbatch⟩) ?_
    exact List.forall_mem_cons.2 ⟨.refl _, List.forall_mem_singleton.2 (.refl _)⟩
  · exact ((hsent (.request .reapply) (.response .apply) _ ⟨by decide, hbatch⟩).2 _).2
      (List.subset_cons_self _ _)

end MessageType

end PrivateMatching
