import Mathlib.Data.List.Infix
import PrivateMatching.Cbor.Parser

/-!
# Readers

A *reader* takes a value off the front of a string, and gives what is behind it.
Two things are said of readers. One *reads* a string as a value if it takes that
value off the string, whatever is behind it (`Reads`). And one reader *extends*
another if it takes off every longer string what the other takes off
(`Extends`): a reader that extends itself does not look behind what it takes.

Both pass from the parts of a string to the whole of it, as reading the whole is
reading the parts in turn (`andThen`). Together they make a string delimit
itself: a reader that reads it, and extends itself, takes nothing off a string
that breaks off before its end (`Reads.eq_none`).
-/

namespace PrivateMatching

namespace Cbor

/-- What takes a value off the front of a string. -/
abbrev Reader (α : Type) := Bytes → Option (α × Bytes)

/-- Takes off one value, and then what is expected behind it. -/
def andThen (p : Reader α) (f : α → Reader β) : Reader β := fun input =>
  match p input with
  | none => none
  | some (value, rest) => f value rest

/-- Takes nothing off, and gives a value if there is one. -/
def give (value : Option α) : Reader α := fun rest => value.map fun value => (value, rest)

/-- A reader takes a value off a string, whatever is behind the string. -/
def Reads (p : Reader α) (bytes : Bytes) (value : α) : Prop :=
  ∀ rest, p (bytes ++ rest) = some (value, rest)

/-- What a reader takes off a string, another takes off every longer string, and
    leaves the rest of it. -/
def Extends (p q : Reader α) : Prop :=
  ∀ ⦃input value rest⦄, p input = some (value, rest) →
    ∀ more, q (input ++ more) = some (value, rest ++ more)

variable {α β : Type} {p q : Reader α} {f g : α → Reader β}

/-- A string that is read breaks off nowhere: no proper prefix of it holds a value. -/
theorem Reads.eq_none {bytes front : Bytes} {value : α} (hp : Reads p bytes value)
    (h : Extends p p) (hfront : front <+: bytes) (hne : front ≠ bytes) : p front = none := by
  obtain ⟨more, rfl⟩ := hfront
  cases hread : p front with
  | none => rfl
  | some r =>
    obtain ⟨value', rest⟩ := r
    -- The whole string would leave at least what was cut off.
    have hwhole : p (front ++ more) = some (value, []) := by simpa using hp []
    rw [h hread more, Option.some.injEq, Prod.mk.injEq] at hwhole
    have hmore : more = [] := (List.append_eq_nil_iff.1 hwhole.2).2
    exact absurd (by rw [hmore, List.append_nil]) hne

/-! ## Reading in turn -/

theorem andThen_eq_some {input rest : Bytes} {b : β} (h : andThen p f input = some (b, rest)) :
    ∃ a rest', p input = some (a, rest') ∧ f a rest' = some (b, rest) := by
  rw [andThen] at h
  cases hp : p input with
  | none => simp [hp] at h
  | some r => exact ⟨r.1, r.2, rfl, by simpa [hp] using h⟩

theorem andThen_give_some (p : Reader α) (f : α → β) (input : Bytes) :
    andThen p (fun a => give (some (f a))) input = (p input).map fun r => (f r.1, r.2) := by
  rw [andThen]
  cases p input <;> rfl

theorem Reads.andThen {front bytes : Bytes} {a : α} {b : β} (hp : Reads p front a)
    (hf : Reads (f a) bytes b) : Reads (andThen p f) (front ++ bytes) b := by
  intro rest
  rw [List.append_assoc, Cbor.andThen, hp]
  exact hf rest

theorem Extends.andThen (h : Extends p q) (hf : ∀ a, Extends (f a) (g a)) :
    Extends (andThen p f) (andThen q g) := by
  intro input b rest hread more
  obtain ⟨a, rest', hp, hrest⟩ := andThen_eq_some hread
  rw [Cbor.andThen, h hp more]
  exact hf a hrest more

theorem reads_give (b : β) : Reads (give (some b)) [] b := fun _ => rfl

theorem extends_give (b : Option β) : Extends (give b) (give b) := by
  intro input value rest h more
  cases b with
  | none => cases h
  | some b =>
    cases h
    rfl

/-- A string is read as what its value is turned into. -/
theorem Reads.andThen_give {bytes : Bytes} {a : α} {b : β} {f : α → Option β}
    (hp : Reads p bytes a) (hf : f a = some b) :
    Reads (Cbor.andThen p fun a => give (f a)) bytes b := by
  have hgive : Reads (give (f a)) [] b := hf ▸ reads_give b
  simpa using hp.andThen (f := fun a => give (f a)) hgive

theorem Extends.andThen_give (h : Extends p q) (f : α → Option β) :
    Extends (Cbor.andThen p fun a => give (f a)) (Cbor.andThen q fun a => give (f a)) :=
  h.andThen fun a => extends_give (f a)

theorem Reads.map {bytes : Bytes} {a : α} (hp : Reads p bytes a) (f : α → β) :
    Reads (fun input => (p input).map fun r => (f r.1, r.2)) bytes (f a) := by
  intro rest
  simp only [hp rest, Option.map_some]

theorem Extends.map (h : Extends p q) (f : α → β) {input rest : Bytes} {b : β}
    (hread : (p input).map (fun r => (f r.1, r.2)) = some (b, rest)) (more : Bytes) :
    (q (input ++ more)).map (fun r => (f r.1, r.2)) = some (b, rest ++ more) := by
  rw [← andThen_give_some] at hread ⊢
  exact h.andThen_give (fun a => some (f a)) hread more

/-! ## Strings of a known length -/

theorem reads_splitAt? (front : Bytes) : Reads (Bytes.splitAt? front.length) front front :=
  Bytes.splitAt?_append front

theorem splitAt?_eq_some_iff {count : ℕ} {bytes front rest : Bytes} :
    Bytes.splitAt? count bytes = some (front, rest) ↔
      front.length = count ∧ bytes = front ++ rest := by
  constructor
  · intro h
    rw [Bytes.splitAt?] at h
    split at h
    next hlength =>
      obtain ⟨rfl, rfl⟩ := Prod.mk.inj (Option.some.inj h)
      exact ⟨hlength, (List.take_append_drop count bytes).symm⟩
    next => cases h
  · rintro ⟨rfl, rfl⟩
    exact Bytes.splitAt?_append front rest

theorem extends_splitAt? (count : ℕ) :
    Extends (Bytes.splitAt? count) (Bytes.splitAt? count) := by
  intro input front rest h more
  obtain ⟨hlength, rfl⟩ := splitAt?_eq_some_iff.1 h
  exact splitAt?_eq_some_iff.2 ⟨hlength, List.append_assoc ..⟩

/-! ## Many parts -/

theorem parseMany_succ (p : Reader α) (count : ℕ) :
    parseMany p (count + 1) =
      andThen p fun value => andThen (parseMany p count) fun values =>
        give (some (value :: values)) := by
  funext input
  rw [parseMany, andThen]
  cases p input with
  | none => rfl
  | some r =>
    dsimp only
    rw [andThen_give_some]
    cases parseMany p count r.2 <;> rfl

theorem parsePair_eq (p : Reader α) :
    parsePair p = andThen p fun a => andThen p fun b => give (some (a, b)) := by
  funext input
  rw [parsePair, andThen]
  cases p input with
  | none => rfl
  | some r =>
    dsimp only
    rw [andThen_give_some]
    cases p r.2 <;> rfl

/-- Parts that are read are read one behind the other. -/
theorem Reads.parseMany {ι : Type} {parts : List ι} {bytes : ι → Bytes} {value : ι → α}
    (h : ∀ part ∈ parts, Reads p (bytes part) (value part)) :
    Reads (parseMany p parts.length) (parts.flatMap bytes) (parts.map value) := by
  induction parts with
  | nil => exact reads_give []
  | cons part parts ih =>
    obtain ⟨hpart, hparts⟩ := List.forall_mem_cons.1 h
    rw [List.flatMap_cons, List.length_cons, List.map_cons, parseMany_succ]
    exact hpart.andThen ((ih hparts).andThen_give rfl)

theorem Extends.parseMany (h : Extends p q) (count : ℕ) :
    Extends (parseMany p count) (parseMany q count) := by
  induction count with
  | zero => exact extends_give (some [])
  | succ count ih =>
    rw [parseMany_succ, parseMany_succ]
    exact h.andThen fun value => ih.andThen_give fun values => some (value :: values)

theorem Reads.parsePair {first second : Bytes} {a b : α} (ha : Reads p first a)
    (hb : Reads p second b) : Reads (parsePair p) (first ++ second) (a, b) := by
  rw [parsePair_eq]
  exact ha.andThen (hb.andThen_give rfl)

theorem Extends.parsePair (h : Extends p q) : Extends (parsePair p) (parsePair q) := by
  rw [parsePair_eq, parsePair_eq]
  exact h.andThen fun a => h.andThen_give fun b => some (a, b)

end Cbor

end PrivateMatching
