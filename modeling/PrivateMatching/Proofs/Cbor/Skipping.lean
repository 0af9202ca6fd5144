import PrivateMatching.Cbor.Tagged
import PrivateMatching.Proofs.Cbor.Written

/-!
# What may be passed over

An item whose meaning is of no interest may be passed over, unless it nests too deep
(`Item.skippable`). Tags count as levels there, but not where the item is read; an item
that is free of them may be passed over as deep as it may be read
(`Item.Written.skippable`).
-/

namespace PrivateMatching

namespace Cbor

namespace Item

/-- There is no tag in an item. -/
inductive TagFree : Item → Prop
  /-- A natural number is no tag. -/
  | unsigned (n : UInt64) : TagFree (.unsigned n)
  /-- A negative number is no tag. -/
  | negative (n : UInt64) : TagFree (.negative n)
  /-- A byte string is no tag. -/
  | bytes (form : Form) (value : Bytes) : TagFree (.bytes form value)
  /-- A text is no tag. -/
  | text (form : Form) (value : String) : TagFree (.text form value)
  /-- There is no tag in the parts of an array. -/
  | array {items : List Item} (hitems : ∀ item ∈ items, TagFree item) : TagFree (.array items)
  /-- There is no tag in the names and the values of a map. -/
  | map {entries : List (Item × Item)} (hnames : ∀ entry ∈ entries, TagFree entry.1)
    (hvalues : ∀ entry ∈ entries, TagFree entry.2) : TagFree (.map entries)
  /-- A constant is no tag. -/
  | constant (value : Constant) : TagFree (.constant value)
  /-- A floating-point number is no tag. -/
  | float (width : FloatWidth) (bits : UInt64) : TagFree (.float width bits)

theorem skippableItems_eq_true_iff {levels : ℕ} {items : List Item} :
    skippableItems levels items = true ↔ ∀ item ∈ items, skippable levels item = true := by
  induction items with
  | nil => simp [skippableItems]
  | cons item items ih => rw [skippableItems, Bool.and_eq_true, ih, List.forall_mem_cons]

theorem skippableEntries_eq_true_iff {levels : ℕ} {entries : List (Item × Item)} :
    skippableEntries levels entries = true ↔
      ∀ entry ∈ entries, skippable levels entry.1 = true ∧ skippable levels entry.2 = true := by
  induction entries with
  | nil => simp [skippableEntries]
  | cons entry entries ih =>
    rw [skippableEntries, Bool.and_eq_true, Bool.and_eq_true, ih, List.forall_mem_cons]

/-- An item without tags may be passed over as deep as it may be read. -/
theorem Written.skippable {levels : ℕ} {item : Item} {bytes : Bytes}
    (h : Written levels item bytes) (hfree : TagFree item) : skippable levels item = true := by
  induction h with
  | array hparts hbytes ih =>
    cases hfree with
    | array hitems =>
      rw [Item.skippable, Bool.and_eq_true, skippableItems_eq_true_iff]
      refine ⟨by simp, List.forall_mem_map.2 fun part hpart => ?_⟩
      exact ih part hpart (hitems _ (List.mem_map_of_mem hpart))
  | map hnames hvalues hbytes ihnames ihvalues =>
    cases hfree with
    | map hnames' hvalues' =>
      rw [Item.skippable, Bool.and_eq_true, skippableEntries_eq_true_iff]
      refine ⟨by simp, List.forall_mem_map.2 fun part hpart => ⟨?_, ?_⟩⟩
      · exact ihnames part hpart (hnames' _ (List.mem_map_of_mem hpart))
      · exact ihvalues part hpart (hvalues' _ (List.mem_map_of_mem hpart))
  | tagged => cases hfree
  | _ => simp [Item.skippable]

/-- The values of a map are written a level deeper. -/
theorem Written.exists_of_map {levels : ℕ} {entries : List (Item × Item)} {bytes : Bytes}
    (h : Written (levels + 1) (.map entries) bytes) :
    ∀ entry ∈ entries, ∃ value, Written levels entry.2 value := by
  cases h with
  | map hnames hvalues hbytes =>
    exact List.forall_mem_map.2 fun part hpart => ⟨_, hvalues part hpart⟩

end Item

end Cbor

end PrivateMatching
