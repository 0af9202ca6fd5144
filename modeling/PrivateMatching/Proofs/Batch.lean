import Mathlib.Data.List.Forall2
import PrivateMatching.Batch
import PrivateMatching.Proofs.Key
import PrivateMatching.Proofs.Reading

/-!
# What a layer does to a batch

Decoding a batch gives the elements of all its strings (`Batch.decode_of_forall₂`),
or fails at the lowest position that does not decode
(`Batch.decode_of_firstFault`). In a group of prime order, no layer takes an
element that was read to the identity, so what was decoded is transformed
(`Batch.apply_of_decode`).

With a canonical reading a batch of encodings stands for a list of elements of
the group (`Encodes`), each string for one and each element in one string. A
layer raises these elements to the exponent of the key
(`Batch.apply_of_encodes`).
-/

namespace PrivateMatching

/-! ## Functions that can fail, one after the other -/

@[simp] theorem pure_eq_ok {ε α : Type} (a : α) : (pure a : Except ε α) = .ok a := rfl

/-- Two steps succeed if the first does, and the second on what it gives. -/
@[simp] theorem bind_eq_ok_iff {ε α β : Type} {x : Except ε α} {f : α → Except ε β} {b : β} :
    (x >>= f) = .ok b ↔ ∃ a, x = .ok a ∧ f a = .ok b := by
  cases x with
  | error e => exact iff_of_false (by rintro ⟨⟩) (by rintro ⟨_, ⟨⟩, _⟩)
  | ok a =>
    simp only [Except.ok.injEq, exists_eq_left']
    rfl

/-- A success does not depend on how failures are called. -/
@[simp] theorem mapError_eq_ok_iff {ε ε' α : Type} {x : Except ε α} {f : ε → ε'} {a : α} :
    x.mapError f = .ok a ↔ x = .ok a := by
  cases x with
  | error e => exact iff_of_false (by rintro ⟨⟩) (by rintro ⟨⟩)
  | ok b => rw [Except.mapError, Except.ok.injEq, Except.ok.injEq]

/-! ## Functions that can fail, along a list -/

/-- Going from list to list in two steps, of which the second is a function. -/
theorem forall₂_exists_map_iff {α β γ : Type*} {r : α → β → Prop} {f : β → γ} {l : List α}
    {l' : List γ} : List.Forall₂ (fun a c => ∃ b, r a b ∧ f b = c) l l' ↔
      ∃ m, List.Forall₂ r l m ∧ m.map f = l' := by
  constructor
  · intro h
    induction h with
    | nil => exact ⟨[], .nil, rfl⟩
    | cons hb _ ih =>
      obtain ⟨b, hb, rfl⟩ := hb
      obtain ⟨m, hm, rfl⟩ := ih
      exact ⟨b :: m, .cons hb hm, rfl⟩
  · rintro ⟨m, hm, rfl⟩
    rw [List.forall₂_map_right_iff]
    exact hm.imp fun _ b hb => ⟨b, hb, rfl⟩

/-- A function fails at a position of a list with an error, and at none before it. -/
structure FirstError {α β ε : Type*} (f : α → Except ε β) (l : List α) (position : ℕ) (error : ε) :
    Prop where
  fails : ∃ a, l[position]? = some a ∧ f a = .error error
  least : ∀ i < position, ∀ a, l[i]? = some a → ∃ b, f a = .ok b

section FirstError

variable {α β ε : Type*} {f : α → Except ε β} {a : α} {l : List α} {position : ℕ} {error : ε}

theorem firstError_zero (h : f a = .error error) : FirstError f (a :: l) 0 error :=
  ⟨⟨a, rfl, h⟩, fun _ hi => absurd hi (Nat.not_lt_zero _)⟩

theorem firstError_succ {b : β} (h : f a = .ok b) :
    FirstError f (a :: l) (position + 1) error ↔ FirstError f l position error := by
  constructor
  · rintro ⟨hfails, hleast⟩
    exact ⟨hfails, fun i hi => hleast (i + 1) (Nat.succ_lt_succ hi)⟩
  · rintro ⟨hfails, hleast⟩
    refine ⟨hfails, fun i hi a' ha' => ?_⟩
    rcases i with _ | i
    · obtain rfl := Option.some.inj ha'
      exact ⟨b, h⟩
    · exact hleast i (Nat.lt_of_succ_lt_succ hi) a' ha'

/-- A function succeeds along a list, or it has a first error. -/
theorem forall₂_or_firstError (f : α → Except ε β) (l : List α) :
    (∃ bs, List.Forall₂ (fun a b => f a = .ok b) l bs) ∨ ∃ position error,
      FirstError f l position error := by
  induction l with
  | nil => exact .inl ⟨[], .nil⟩
  | cons a l ih =>
    cases h : f a with
    | error error => exact .inr ⟨0, error, firstError_zero h⟩
    | ok b =>
      rcases ih with ⟨bs, hbs⟩ | ⟨position, error, hfirst⟩
      · exact .inl ⟨b :: bs, .cons h hbs⟩
      · exact .inr ⟨position + 1, error, (firstError_succ h).2 hfirst⟩

/-- Functions that fail alike have the same first errors. -/
theorem firstError_congr {γ η : Type*} {g : α → Except η γ} {cause : η}
    (herror : ∀ a, f a = .error error ↔ g a = .error cause)
    (hok : ∀ a, (∃ b, f a = .ok b) ↔ ∃ c, g a = .ok c) :
    FirstError f l position error ↔ FirstError g l position cause := by
  constructor
  · rintro ⟨⟨a, ha, hfails⟩, hleast⟩
    exact ⟨⟨a, ha, (herror a).1 hfails⟩, fun i hi b hb => (hok b).1 (hleast i hi b hb)⟩
  · rintro ⟨⟨a, ha, hfails⟩, hleast⟩
    exact ⟨⟨a, ha, (herror a).2 hfails⟩, fun i hi b hb => (hok b).2 (hleast i hi b hb)⟩

end FirstError

namespace Batch

variable {C : Suite} {elements : List Bytes}

/-- All strings of a batch decode. -/
def Decodes (C : Suite) (elements : List Bytes) : Prop :=
  ∀ bytes ∈ elements, ∃ x, C.decode bytes = .ok x

/-- The string at a position does not decode, for a reason, and all before it do. -/
structure FirstFault (C : Suite) (elements : List Bytes) (position : ℕ) (reason : EncodingFault) :
    Prop where
  fails : ∃ bytes, elements[position]? = some bytes ∧ C.decode bytes = .error reason
  least : ∀ i < position, ∀ bytes, elements[i]? = some bytes → ∃ x, C.decode bytes = .ok x

/-! ## Decoding -/

theorem decodes_cons {bytes : Bytes} :
    Decodes C (bytes :: elements) ↔ (∃ x, C.decode bytes = .ok x) ∧ Decodes C elements :=
  List.forall_mem_cons

theorem decodes_singleton {bytes : Bytes} :
    Decodes C [bytes] ↔ ∃ x, C.decode bytes = .ok x :=
  List.forall_mem_singleton

/-- A batch that decodes is decoded string by string. -/
theorem decodes_iff : Decodes C elements ↔
    ∃ xs, List.Forall₂ (fun bytes x => C.decode bytes = .ok x) elements xs := by
  induction elements with
  | nil => exact ⟨fun _ => ⟨[], .nil⟩, fun _ _ h => absurd h List.not_mem_nil⟩
  | cons bytes rest ih =>
    rw [decodes_cons, ih]
    constructor
    · rintro ⟨⟨x, hx⟩, xs, hxs⟩
      exact ⟨x :: xs, .cons hx hxs⟩
    · rintro ⟨_, _ | ⟨hx, hxs⟩⟩
      exact ⟨⟨_, hx⟩, _, hxs⟩

/-- A first fault is a first error of decoding. -/
theorem firstFault_iff {position : ℕ} {reason : EncodingFault} :
    FirstFault C elements position reason ↔ FirstError C.decode elements position reason :=
  ⟨fun h => ⟨h.fails, h.least⟩, fun h => ⟨h.fails, h.least⟩⟩

theorem firstFault_zero {bytes : Bytes} {reason : EncodingFault}
    (h : C.decode bytes = .error reason) :
    FirstFault C (bytes :: elements) 0 reason :=
  firstFault_iff.2 (firstError_zero h)

theorem firstFault_succ {bytes : Bytes} {x : C.Element} {position : ℕ} {reason : EncodingFault}
    (h : C.decode bytes = .ok x) :
    FirstFault C (bytes :: elements) (position + 1) reason ↔
      FirstFault C elements position reason := by
  rw [firstFault_iff, firstFault_iff, firstError_succ h]

/-- What decoding gives from a position on: the elements of all strings, or the
    first fault. -/
theorem decodeFrom_cases (C : Suite) (position : ℕ) (elements : List Bytes) :
    (∃ xs, List.Forall₂ (fun bytes x => C.decode bytes = .ok x) elements xs ∧
      decodeFrom C position elements = .ok xs) ∨
    (∃ i reason, FirstFault C elements i reason ∧
      decodeFrom C position elements = .error (.invalidEncoding (position + i) reason)) := by
  induction elements generalizing position with
  | nil => exact .inl ⟨[], .nil, rfl⟩
  | cons bytes rest ih =>
    rw [decodeFrom]
    cases h : C.decode bytes with
    | error reason => exact .inr ⟨0, reason, firstFault_zero h, rfl⟩
    | ok x =>
      rcases ih (position + 1) with ⟨xs, hxs, hrest⟩ | ⟨i, reason, hfault, hrest⟩
      · exact .inl ⟨x :: xs, .cons h hxs, by simp only [hrest]⟩
      · refine .inr ⟨i + 1, reason, (firstFault_succ h).2 hfault, ?_⟩
        simp only [hrest, Nat.add_assoc, Nat.add_comm 1 i]

/-- A batch with a fault does not decode. -/
theorem FirstFault.not_decodes {position : ℕ} {reason : EncodingFault}
    (h : FirstFault C elements position reason) : ¬Decodes C elements := by
  obtain ⟨bytes, hget, hfails⟩ := h.fails
  intro hdecodes
  obtain ⟨x, hx⟩ := hdecodes bytes (List.mem_of_getElem? hget)
  rw [hfails] at hx
  cases hx

/-- There is one first fault at most. -/
theorem FirstFault.unique {p q : ℕ} {reason cause : EncodingFault}
    (h : FirstFault C elements p reason) (h' : FirstFault C elements q cause) :
    p = q ∧ reason = cause := by
  obtain ⟨bytes, hget, hfails⟩ := h.fails
  obtain ⟨bytes', hget', hfails'⟩ := h'.fails
  -- The string at the lower of two positions would decode.
  have hpq : p = q := by
    rcases Nat.lt_trichotomy p q with hlt | heq | hlt
    · obtain ⟨x, hx⟩ := h'.least p hlt bytes hget
      rw [hfails] at hx
      cases hx
    · exact heq
    · obtain ⟨x, hx⟩ := h.least q hlt bytes' hget'
      rw [hfails'] at hx
      cases hx
  subst hpq
  obtain rfl : bytes = bytes' := Option.some.inj (hget ▸ hget')
  rw [hfails] at hfails'
  exact ⟨rfl, Except.error.inj hfails'⟩

/-- A batch is decoded to the elements of its strings. -/
theorem decode_of_forall₂ {xs : List C.Element}
    (h : List.Forall₂ (fun bytes x => C.decode bytes = .ok x) elements xs) :
    decode C elements = .ok xs := by
  rw [decode]
  -- Where nothing fails, the position does not matter.
  generalize 0 = position
  induction h generalizing position with
  | nil => rfl
  | cons hx _ ih => simp only [decodeFrom, hx, ih]

/-- Decoding a batch fails at its first fault. -/
theorem decode_of_firstFault {position : ℕ} {reason : EncodingFault}
    (h : FirstFault C elements position reason) :
    decode C elements = .error (.invalidEncoding position reason) := by
  rcases decodeFrom_cases C 0 elements with ⟨xs, hxs, _⟩ | ⟨i, cause, hfault, hdecode⟩
  · exact absurd (decodes_iff.2 ⟨xs, hxs⟩) h.not_decodes
  · obtain ⟨rfl, rfl⟩ := h.unique hfault
    rw [decode, hdecode, Nat.zero_add]

/-- So does a layer of any key on it. -/
theorem apply_of_firstFault {position : ℕ} {reason : EncodingFault}
    (h : FirstFault C elements position reason) (key : Key C) (direction : Direction) :
    apply key direction elements = .error (.invalidEncoding position reason) := by
  rw [apply, decode_of_firstFault h]

/-- A batch decodes, or it has a first fault. -/
theorem decodes_or_firstFault (C : Suite) (elements : List Bytes) :
    Decodes C elements ∨ ∃ position reason, FirstFault C elements position reason := by
  rcases decodeFrom_cases C 0 elements with ⟨xs, hxs, _⟩ | ⟨i, reason, hfault, _⟩
  · exact .inl (decodes_iff.2 ⟨xs, hxs⟩)
  · exact .inr ⟨i, reason, hfault⟩

/-! ## Layers on batches -/

variable {G : Type*} [CommGroup G] (R : C.Reading G) [Fact C.order.Prime]

/-- A layer whose exponent is not zero takes no element to the identity, except
    the identity. -/
theorem apply_layer {x : C.Element} (hx : R.Sound x) (hone : R.value x ≠ 1) {layer : Layer C}
    (he : Modular.toZMod layer.exponent ≠ 0) : layer.apply x = .ok (C.exp x layer.exponent) := by
  have hidentity : ¬C.isIdentity (C.exp x layer.exponent) = true := by
    rw [R.isIdentity_iff (R.sound_exp hx _)]
    exact R.value_exp_ne_one hx hone he
  rw [Layer.apply]
  simp only [if_neg hidentity]

/-- A layer on elements that are not the identity is the layer on each. -/
theorem transform_eq {xs : List C.Element} (hxs : ∀ x ∈ xs, R.Sound x ∧ R.value x ≠ 1)
    {e : Scalar C.order} (he : Modular.toZMod e ≠ 0) (direction : Direction) :
    transform ⟨e, direction⟩ xs = .ok (xs.map fun x => C.encode (C.exp x e)) := by
  induction xs with
  | nil => rfl
  | cons x xs ih =>
    obtain ⟨⟨hx, hone⟩, hrest⟩ := List.forall_mem_cons.1 hxs
    rw [transform, apply_layer R hx hone he]
    simp only [ih hrest, List.map_cons]

omit [Fact C.order.Prime] in
/-- What was read is sound, and not the identity. -/
theorem sound_of_decode {xs : List C.Element}
    (h : List.Forall₂ (fun bytes x => C.decode bytes = .ok x) elements xs) :
    ∀ x ∈ xs, R.Sound x ∧ R.value x ≠ 1 := by
  induction h with
  | nil => exact fun _ hx => absurd hx List.not_mem_nil
  | cons hx _ ih =>
    exact List.forall_mem_cons.2 ⟨⟨R.sound_of_decode hx, R.value_ne_one_of_decode hx⟩, ih⟩

variable [Fact (2 < C.order)]

include R in
/-- A layer of a key on a batch that decodes: every element is raised to the
    exponent of the key, in place. -/
theorem apply_of_decode (key : Key C) (direction : Direction) {xs : List C.Element}
    (h : List.Forall₂ (fun bytes x => C.decode bytes = .ok x) elements xs) {e : Scalar C.order}
    (he : Modular.toZMod e = key.factor direction) :
    apply key direction elements = .ok (xs.map fun x => C.encode (C.exp x e)) := by
  obtain ⟨e', he', hlayer⟩ := Layer.ofKey_eq key direction
  obtain rfl : e = e' := Modular.toZMod_injective (he.trans he'.symm)
  have hne : Modular.toZMod e ≠ 0 := he ▸ key.factor_ne_zero direction
  have hlength : elements.length = (xs.map fun x => C.encode (C.exp x e)).length := by
    rw [List.length_map, h.length_eq]
  rw [apply, decode_of_forall₂ h]
  simp only [hlayer, transform_eq R (sound_of_decode R h) hne direction, checkLength,
    if_pos hlength]

end Batch

/-- The same in a suite that is a group of prime order, whatever it is read in. -/
theorem Batch.apply_of_isLawful {C : Suite} (hC : C.IsLawful) (key : Key C)
    (direction : Direction) {elements : List Bytes} {xs : List C.Element}
    (h : List.Forall₂ (fun bytes x => C.decode bytes = .ok x) elements xs) {e : Scalar C.order}
    (he : Modular.toZMod e = key.factor direction) :
    apply key direction elements = .ok (xs.map fun x => C.encode (C.exp x e)) := by
  have := Fact.mk hC.prime_order
  have := Fact.mk hC.two_lt_order
  obtain ⟨G, _, R, _⟩ := hC.exists_reading
  exact apply_of_decode R key direction h he

/-! ## Batches as lists of group elements -/

section Canonical

variable {C : Suite} {G : Type*} [CommGroup G] {R : C.Reading G}

/-- A string is read as an element of the group. -/
def Encodes (R : C.Reading G) (bytes : Bytes) (g : G) : Prop :=
  ∃ x, C.decode bytes = .ok x ∧ R.value x = g

/-- A string is read as one element. -/
theorem Encodes.value_unique {bytes : Bytes} {g h : G} (hg : Encodes R bytes g)
    (hh : Encodes R bytes h) : g = h := by
  obtain ⟨x, hx, rfl⟩ := hg
  obtain ⟨y, hy, rfl⟩ := hh
  rw [hx] at hy
  rw [Except.ok.inj hy]

/-- An element is read from one string. -/
theorem Encodes.bytes_unique (hR : R.IsCanonical) {b c : Bytes} {g : G} (hb : Encodes R b g)
    (hc : Encodes R c g) : b = c := by
  obtain ⟨x, hx, hxg⟩ := hb
  obtain ⟨y, hy, hyg⟩ := hc
  rw [← hR.encode_of_decode hx, ← hR.encode_of_decode hy]
  exact hR.encode_congr (R.sound_of_decode hx) (R.sound_of_decode hy) (hxg.trans hyg.symm)

/-- What a string stands for is a root of one to the order. -/
theorem Encodes.pow_order {bytes : Bytes} {g : G} (h : Encodes R bytes g) : g ^ C.order = 1 := by
  obtain ⟨x, hx, rfl⟩ := h
  exact R.value_pow_order (R.sound_of_decode hx)

/-- Strings that are read are equal if and only if their elements are. -/
theorem Encodes.eq_iff (hR : R.IsCanonical) {b c : Bytes} {g h : G} (hb : Encodes R b g)
    (hc : Encodes R c h) : b = c ↔ g = h := by
  constructor
  · rintro rfl
    exact hb.value_unique hc
  · rintro rfl
    exact hb.bytes_unique hR hc

namespace Batch

/-- A batch stands for the values of the elements it decodes to. -/
theorem encodes_iff {elements : List Bytes} {gs : List G} :
    List.Forall₂ (Encodes R) elements gs ↔
      ∃ xs, List.Forall₂ (fun bytes x => C.decode bytes = .ok x) elements xs ∧
        xs.map R.value = gs :=
  forall₂_exists_map_iff

/-- What a batch stands for are roots of one to the order. -/
theorem pow_order_of_encodes {elements : List Bytes} {gs : List G}
    (h : List.Forall₂ (Encodes R) elements gs) : ∀ g ∈ gs, g ^ C.order = 1 := by
  induction h with
  | nil => exact fun _ hg => absurd hg List.not_mem_nil
  | cons hg _ ih => exact List.forall_mem_cons.2 ⟨hg.pow_order, ih⟩

/-- Powers of powers of what a batch stands for, for exponents modulo the order. -/
theorem map_pow_map_of_encodes {elements : List Bytes} {gs : List G}
    (h : List.Forall₂ (Encodes R) elements gs) (a b : ZMod C.order) :
    (gs.map (· ^ a.val)).map (· ^ b.val) = gs.map (· ^ (a * b).val) := by
  rw [List.map_map]
  refine List.map_congr_left fun g hg => ?_
  rw [Function.comp_apply, Modular.pow_val_mul (pow_order_of_encodes h g hg)]

/-- A batch that decodes stands for a list of elements. -/
theorem exists_encodes (R : C.Reading G) {elements : List Bytes} (h : Decodes C elements) :
    ∃ gs, List.Forall₂ (Encodes R) elements gs := by
  obtain ⟨xs, hxs⟩ := decodes_iff.1 h
  exact ⟨_, encodes_iff.2 ⟨xs, hxs, rfl⟩⟩

/-- A list of elements has one batch at most. -/
theorem encodes_unique (hR : R.IsCanonical) {B B' : List Bytes} {gs : List G}
    (h : List.Forall₂ (Encodes R) B gs) (h' : List.Forall₂ (Encodes R) B' gs) : B = B' :=
  List.left_unique_forall₂' (fun _ _ _ hb hc => hb.bytes_unique hR hc) h h'

variable [Fact C.order.Prime] [Fact (2 < C.order)]

/-- A layer of a key raises the elements of a batch to the exponent of the key. -/
theorem apply_of_encodes (hR : R.IsCanonical) (key : Key C) (direction : Direction)
    {elements : List Bytes} {gs : List G} (h : List.Forall₂ (Encodes R) elements gs) :
    ∃ output, apply key direction elements = .ok output ∧
      List.Forall₂ (Encodes R) output (gs.map (· ^ (key.factor direction).val)) := by
  obtain ⟨e, he, _⟩ := Layer.ofKey_eq key direction
  obtain ⟨xs, hxs, rfl⟩ := encodes_iff.1 h
  have hne : Modular.toZMod e ≠ 0 := he ▸ key.factor_ne_zero direction
  refine ⟨_, apply_of_decode R key direction hxs he, ?_⟩
  -- No output is the identity, so each is read back.
  rw [List.map_map, List.forall₂_map_left_iff, List.forall₂_map_right_iff, List.forall₂_same]
  intro x hx
  obtain ⟨hsound, hone⟩ := sound_of_decode R hxs x hx
  obtain ⟨y, hy, hvalue⟩ :=
    hR.decode_encode (R.sound_exp hsound e) (R.value_exp_ne_one hsound hone hne)
  refine ⟨y, hy, ?_⟩
  rw [hvalue, R.value_exp hsound, ← he, Modular.val_toZMod, Function.comp_apply]

end Batch

end Canonical

end PrivateMatching
