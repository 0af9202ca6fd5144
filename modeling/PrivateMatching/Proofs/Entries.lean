import Mathlib.Data.List.Nodup
import Mathlib.Data.Set.List
import PrivateMatching.Message.Cbor
import PrivateMatching.Proofs.Cbor.Skipping

/-!
# Entries of messages

The fields of messages hold bytes, as arrays of numbers, and arrays of these
(`Item.IsNumbers`). Of all such arrays, just those of numbers that are bytes hold a value,
and this value is read (`Item.ReadsNumbers`). The value of a field is read from the only
entry of its name (`Item.ReadsNumbers.read_eq_some_iff`); there is one if the name is there
once, and the numbers in the entry are bytes (`Item.ReadsNumbers.exists_entriesNamed`).
-/

namespace PrivateMatching

namespace Cbor

namespace Item

variable {α β : Type}

/-! ## Arrays of numbers -/

/-- An item is a natural number, or arrays of these nested to exactly some depth. -/
inductive IsNumbers : (depth : ℕ) → Item → Prop
  /-- A number is not nested. -/
  | number (n : UInt64) : IsNumbers 0 (.unsigned n)
  /-- An array is a level above its parts. -/
  | array {depth : ℕ} {items : List Item} (hitems : ∀ item ∈ items, IsNumbers depth item) :
    IsNumbers (depth + 1) (.array items)

mutual

/-- The natural numbers in an item, inside of arrays. -/
def numbers : Item → List UInt64
  | .unsigned n => [n]
  | .array items => numbersOfItems items
  | _ => []

/-- The natural numbers in items. -/
def numbersOfItems : List Item → List UInt64
  | [] => []
  | item :: items => numbers item ++ numbersOfItems items

end

/-- The numbers in an item are bytes. -/
def HasByteNumbers (item : Item) : Prop := ∀ n ∈ item.numbers, n.toNat ≤ 255

theorem hasByteNumbers_array {items : List Item} :
    HasByteNumbers (.array items) ↔ ∀ item ∈ items, HasByteNumbers item := by
  rw [HasByteNumbers, numbers]
  induction items with
  | nil => simp [numbersOfItems]
  | cons item items ih =>
    rw [numbersOfItems, List.forall_mem_append, ih, List.forall_mem_cons, HasByteNumbers]

theorem IsNumbers.tagFree {depth : ℕ} {item : Item} (h : IsNumbers depth item) : TagFree item := by
  induction h with
  | number n => exact .unsigned n
  | array _ ih => exact .array ih

/-- Values are written as numbers of some depth, and read back; every item of the depth is
    written for some value if its numbers are bytes. -/
structure ReadsNumbers (depth : ℕ) (read : Item → Option α) (write : α → Item) : Prop where
  /-- Values are written as numbers of the depth. -/
  isNumbers : ∀ a, IsNumbers depth (write a)
  /-- Of numbers of the depth, just what is written for a value is read as the value. -/
  eq_some_iff : ∀ {item}, IsNumbers depth item → ∀ {a}, read item = some a ↔ item = write a
  /-- Of numbers of the depth, just those that are bytes are written for some value. -/
  exists_iff : ∀ {item}, IsNumbers depth item → ((∃ a, item = write a) ↔ HasByteNumbers item)

theorem ReadsNumbers.read_write {depth : ℕ} {read : Item → Option α} {write : α → Item}
    (h : ReadsNumbers depth read write) (a : α) : read (write a) = some a :=
  (h.eq_some_iff (h.isNumbers a)).2 rfl

theorem ReadsNumbers.hasByteNumbers {depth : ℕ} {read : Item → Option α} {write : α → Item}
    (h : ReadsNumbers depth read write) (a : α) : HasByteNumbers (write a) :=
  (h.exists_iff (h.isNumbers a)).1 ⟨a, rfl⟩

theorem mapM_eq_some_iff {read : α → Option β} {write : β → α} {as : List α}
    (h : ∀ a ∈ as, ∀ {b}, read a = some b ↔ a = write b) {bs : List β} :
    as.mapM read = some bs ↔ as = bs.map write := by
  induction as generalizing bs with
  | nil => cases bs <;> simp
  | cons a as ih =>
    obtain ⟨ha, has⟩ := List.forall_mem_cons.1 h
    simp only [List.mapM_cons, Option.bind_eq_bind, Option.bind_eq_some_iff, ha, ih has,
      Option.pure_def, Option.some.injEq]
    cases bs <;> simp

theorem exists_eq_map_iff {write : α → β} {bs : List β} :
    (∃ as : List α, bs = as.map write) ↔ ∀ b ∈ bs, ∃ a, b = write a := by
  simpa [eq_comm] using Set.ext_iff.1 (Set.range_list_map write) bs

theorem ReadsNumbers.array {depth : ℕ} {read : Item → Option α} {write : α → Item}
    (h : ReadsNumbers depth read write) {readAll : Item → Option (List α)}
    (hread : ∀ items, readAll (.array items) = items.mapM read) :
    ReadsNumbers (depth + 1) readAll fun as => .array (as.map write) where
  isNumbers as := .array (List.forall_mem_map.2 fun a _ => h.isNumbers a)
  eq_some_iff := by
    rintro _ (_ | hitems) as
    rw [hread, Item.array.injEq]
    exact mapM_eq_some_iff fun item hitem => h.eq_some_iff (hitems item hitem)
  exists_iff := by
    rintro _ (_ | hitems)
    rw [hasByteNumbers_array, ← forall₂_congr fun item hitem => h.exists_iff (hitems item hitem)]
    simp only [Item.array.injEq]
    exact exists_eq_map_iff

theorem readsNumbers_toByte? : ReadsNumbers 0 toByte? fun b => .unsigned b.toUInt64 where
  isNumbers b := .number b.toUInt64
  eq_some_iff := by
    rintro _ ⟨n⟩ b
    simp only [Item.unsigned.injEq, ← UInt64.toNat_inj, UInt8.toNat_toUInt64, toByte?, toNat?]
    split
    next hlt => rw [Option.some.injEq, ← UInt8.toNat_inj, UInt8.toNat_ofNat_of_lt' hlt]
    next hge =>
      have hlt := b.toNat_lt
      simp only [reduceCtorEq, false_iff]
      omega
  exists_iff := by
    rintro _ ⟨n⟩
    simp only [HasByteNumbers, numbers, List.forall_mem_singleton, Item.unsigned.injEq,
      ← UInt64.toNat_inj, UInt8.toNat_toUInt64]
    constructor
    · rintro ⟨b, hb⟩
      exact hb ▸ Nat.le_of_lt_succ b.toNat_lt
    · intro hn
      exact ⟨UInt8.ofNat n.toNat, (UInt8.toNat_ofNat_of_lt (Nat.lt_succ_of_le hn)).symm⟩

theorem readsNumbers_toBytes? : ReadsNumbers 1 toBytes? ofBytes :=
  readsNumbers_toByte?.array fun _ => rfl

theorem readsNumbers_toBatch? : ReadsNumbers 2 toBatch? ofBatch :=
  readsNumbers_toBytes?.array fun _ => rfl

/-! ## Maps of fields -/

section Maps

variable {fields : List (String × Item)}

/-- A name is read from its text. -/
theorem toName?_text {name : String} (h : (Bytes.ofText name).length ≤ maxNameLength) :
    toName? (.text .whole name) = some (Bytes.ofText name) :=
  if_pos h

/-- The map of some fields. -/
def ofFields (fields : List (String × Item)) : Item :=
  .map (fields.map fun field => entry field.1 field.2)

/-- The entries of fields, by the bytes of their names. -/
def entriesOf (fields : List (String × Item)) : List (Bytes × Item) :=
  fields.map fun field => (Bytes.ofText field.1, field.2)

/-- The names of fields are not too long to be read. -/
def HasShortNames (fields : List (String × Item)) : Prop :=
  ∀ field ∈ fields, (Bytes.ofText field.1).length ≤ maxNameLength

theorem toEntries?_ofFields (h : HasShortNames fields) :
    (ofFields fields).toEntries? = some (entriesOf fields) := by
  simp only [ofFields, toEntries?, untagged, entriesOf]
  induction fields with
  | nil => rfl
  | cons field fields ih =>
    obtain ⟨hname, hnames⟩ := List.forall_mem_cons.1 h
    have hentry : toName? (entry field.1 field.2).1 = some (Bytes.ofText field.1) :=
      toName?_text hname
    rw [List.map_cons, List.mapM_cons, hentry, ih hnames]
    rfl

/-- The entries of fields are read, where those of no interest may be passed over. -/
theorem toFields?_ofFields {names : List String} (h : HasShortNames fields)
    (hothers : ∀ field ∈ fields, field.1 ∉ names → skippable maxEntryLevels field.2 = true) :
    (ofFields fields).toFields? names = some (entriesOf fields) := by
  have hpassable : (entriesOf fields).all (toFields?.passable names) = true := by
    rw [entriesOf, List.all_map, List.all_eq_true]
    intro field hfield
    rw [Function.comp_apply, toFields?.passable, Bool.or_eq_true]
    by_cases hname : field.1 ∈ names
    · exact .inl (List.any_eq_true.2 ⟨field.1, hname, beq_self_eq_true _⟩)
    · exact .inr (hothers field hfield hname)
  simp only [toFields?, toEntries?_ofFields h, hpassable, if_true]

/-- All entries are of interest if the names are those of the fields. -/
theorem toFields?_ofFields_self (h : HasShortNames fields) :
    (ofFields fields).toFields? (fields.map Prod.fst) = some (entriesOf fields) :=
  toFields?_ofFields h fun _ hfield hname => absurd (List.mem_map_of_mem hfield) hname

end Maps

/-! ## Entries of a name -/

section Entries

variable {name : String} {entries : List (String × Item)}

/-- The entries of a name. -/
def entriesNamed (name : String) (entries : List (String × Item)) : List (String × Item) :=
  entries.filter fun entry => entry.1 = name

theorem mem_entriesNamed {entry : String × Item} :
    entry ∈ entriesNamed name entries ↔ entry ∈ entries ∧ entry.1 = name := by
  simp [entriesNamed]

theorem count_eq_length_entriesNamed (name : String) (entries : List (String × Item)) :
    (entries.map Prod.fst).count name = (entriesNamed name entries).length := by
  rw [entriesNamed, List.count_eq_countP, List.countP_map, List.countP_eq_length_filter]
  rfl

/-- There is one entry of a name. -/
theorem length_entriesNamed_eq_one_iff :
    (entriesNamed name entries).length = 1 ↔
      ∃ value, entriesNamed name entries = [(name, value)] := by
  rw [List.length_eq_one_iff]
  constructor
  · rintro ⟨⟨name', value⟩, h⟩
    have hmem : (name', value) ∈ entriesNamed name entries := h ▸ List.mem_singleton_self _
    obtain rfl := (mem_entriesNamed.1 hmem).2
    exact ⟨value, h⟩
  · rintro ⟨value, h⟩
    exact ⟨(name, value), h⟩

theorem onlyEntry?_entriesOf {value : Item} :
    onlyEntry? name (entriesOf entries) = some value ↔
      entriesNamed name entries = [(name, value)] := by
  have hfilter : (entriesOf entries).filter (fun entry => entry.1 == Bytes.ofText name) =
      entriesOf (entriesNamed name entries) := by
    simp [entriesOf, entriesNamed, List.filter_map, Function.comp_def, Bytes.ofText_inj,
      beq_eq_decide]
  unfold onlyEntry?
  rw [hfilter]
  constructor
  · intro h
    split at h
    next entry hentry =>
      have hlength := congrArg List.length hentry
      rw [entriesOf, List.length_map] at hlength
      obtain ⟨value', hvalue'⟩ := length_entriesNamed_eq_one_iff.1 hlength
      rw [hvalue'] at hentry
      cases hentry
      cases h
      exact hvalue'
    next => cases h
  · intro h
    rw [h]
    rfl

theorem forall_named_iff {value : Item} (h : entriesNamed name entries = [(name, value)])
    {P : Item → Prop} : (∀ entry ∈ entries, entry.1 = name → P entry.2) ↔ P value := by
  have hmem : ∀ entry, entry ∈ entries ∧ entry.1 = name ↔ entry = (name, value) := by
    intro entry
    rw [← mem_entriesNamed, h, List.mem_singleton]
  simp only [← and_imp, hmem, forall_eq]

/-- If no name is repeated, an entry is the only one of its name. -/
theorem entriesNamed_eq_singleton_iff (h : (entries.map Prod.fst).Nodup) {entry : String × Item} :
    entriesNamed entry.1 entries = [entry] ↔ entry ∈ entries := by
  constructor
  · intro hentry
    have hmem : entry ∈ entriesNamed entry.1 entries := hentry ▸ List.mem_singleton_self _
    exact (mem_entriesNamed.1 hmem).1
  · intro hentry
    have hcount := List.count_eq_one_of_mem h (List.mem_map_of_mem hentry)
    rw [count_eq_length_entriesNamed, length_entriesNamed_eq_one_iff] at hcount
    obtain ⟨value, hvalue⟩ := hcount
    have hmem : entry ∈ entriesNamed entry.1 entries := mem_entriesNamed.2 ⟨hentry, rfl⟩
    rw [hvalue, List.mem_singleton] at hmem
    rw [hvalue, ← hmem]

variable {depth : ℕ} {read : Item → Option α} {write : α → Item}

/-- A value is read from the only entry of a name if it is written there. -/
theorem ReadsNumbers.read_eq_some_iff (h : ReadsNumbers depth read write)
    (hnumbers : ∀ entry ∈ entries, entry.1 = name → IsNumbers depth entry.2) {a : α} :
    onlyEntry? name (entriesOf entries) >>= read = some a ↔
      entriesNamed name entries = [(name, write a)] := by
  simp only [Option.bind_eq_bind, Option.bind_eq_some_iff, onlyEntry?_entriesOf]
  constructor
  · rintro ⟨value, hvalue, hread⟩
    obtain rfl := (h.eq_some_iff ((forall_named_iff hvalue).1 hnumbers)).1 hread
    exact hvalue
  · intro hvalue
    exact ⟨_, hvalue, (h.eq_some_iff ((forall_named_iff hvalue).1 hnumbers)).2 rfl⟩

/-- Some value is written in the only entry of a name if there is one entry, and its numbers
    are bytes. -/
theorem ReadsNumbers.exists_entriesNamed (h : ReadsNumbers depth read write)
    (hnumbers : ∀ entry ∈ entries, entry.1 = name → IsNumbers depth entry.2) :
    (∃ a, entriesNamed name entries = [(name, write a)]) ↔
      (entries.map Prod.fst).count name = 1 ∧
        ∀ entry ∈ entries, entry.1 = name → HasByteNumbers entry.2 := by
  rw [count_eq_length_entriesNamed, length_entriesNamed_eq_one_iff]
  constructor
  · rintro ⟨a, ha⟩
    refine ⟨⟨_, ha⟩, (forall_named_iff ha).2 ?_⟩
    exact (h.exists_iff ((forall_named_iff ha).1 hnumbers)).1 ⟨a, rfl⟩
  · rintro ⟨⟨value, hvalue⟩, hbytes⟩
    obtain ⟨a, rfl⟩ := (h.exists_iff ((forall_named_iff hvalue).1 hnumbers)).2
      ((forall_named_iff hvalue).1 hbytes)
    exact ⟨a, hvalue⟩

end Entries

end Item

end Cbor

end PrivateMatching
