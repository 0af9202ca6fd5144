import PrivateMatching.Context
import PrivateMatching.Proofs.Bytes

/-!
# What a hash sees of a call

A context hashes strings that are made of the inputs and tags of a call. A framed stream is
read from the front, as every string tells its length (`Framing.frames_eq_iff`): it
determines the tags followed by the inputs, but not where the tags end. The counter of the toy
suite is cut off at the back. The seed of P-256 is read from the back, as the tag tells its
length there (`ExpandMessage.append_closing_eq_iff`): it determines the message and the tag, so
the concatenations, but not where a string of either ends.

A call whose preimages are those of another has the same hash (`Context.hash_congr`), so what
the preimages do not tell apart, the hash does not either.
-/

namespace PrivateMatching

/-! ## Framed streams -/

namespace Framing

/-- The length of every string can be told in its frame. -/
def Fits (parts : List Bytes) : Prop := ∀ part ∈ parts, part.length < 2 ^ 64

/-- The first string of a stream, and what is behind it, can be told. -/
theorem frame_append_eq_iff {a b rest rest' : Bytes} (ha : a.length < 2 ^ 64)
    (hb : b.length < 2 ^ 64) : frame a ++ rest = frame b ++ rest' ↔ a = b ∧ rest = rest' := by
  constructor
  · intro h
    rw [frame, frame, List.append_assoc, List.append_assoc] at h
    obtain ⟨hhead, htail⟩ := List.append_inj h (by rw [Bytes.length_ofNatBE, Bytes.length_ofNatBE])
    -- The frames agree on the lengths, so they end at the same place.
    have hlength : a.length = b.length := by
      rw [← @Bytes.toNat_ofNat .big 8 _ ha, ← @Bytes.toNat_ofNat .big 8 _ hb]
      exact congrArg (Bytes.toNat .big) hhead
    exact List.append_inj htail hlength
  · rintro ⟨rfl, rfl⟩
    rfl

/-- A stream determines the strings that are framed in it. -/
theorem frames_eq_iff {parts parts' : List Bytes} (h : Fits parts) (h' : Fits parts') :
    parts.flatMap frame = parts'.flatMap frame ↔ parts = parts' := by
  refine ⟨fun hframes => ?_, fun hparts => hparts ▸ rfl⟩
  induction parts generalizing parts' with
  | nil =>
    cases parts' with
    | nil => rfl
    | cons b rest' => simp [frame, Bytes.ofNatBE, Bytes.ofNatLE] at hframes
  | cons a rest ih =>
    cases parts' with
    | nil => simp [frame, Bytes.ofNatBE, Bytes.ofNatLE] at hframes
    | cons b rest' =>
      obtain ⟨ha, hrest⟩ := List.forall_mem_cons.1 h
      obtain ⟨hb, hrest'⟩ := List.forall_mem_cons.1 h'
      rw [List.flatMap_cons, List.flatMap_cons, frame_append_eq_iff ha hb] at hframes
      rw [hframes.1, ih hrest hrest' hframes.2]

variable {inputs tags inputs' tags' : List Bytes}

/-- A stream determines the tags followed by the inputs. -/
theorem stream_eq_iff (h : Fits (tags ++ inputs)) (h' : Fits (tags' ++ inputs')) :
    stream inputs tags = stream inputs' tags' ↔ tags ++ inputs = tags' ++ inputs' :=
  frames_eq_iff h h'

/-- Among streams with equally many tags, a stream determines both lists. -/
theorem stream_eq_iff_of_length_eq (h : Fits (tags ++ inputs)) (h' : Fits (tags' ++ inputs'))
    (hlength : tags.length = tags'.length) :
    stream inputs tags = stream inputs' tags' ↔ inputs = inputs' ∧ tags = tags' := by
  rw [stream_eq_iff h h', and_comm]
  refine ⟨fun happend => List.append_inj happend hlength, ?_⟩
  rintro ⟨rfl, rfl⟩
  rfl

/-- The last tag can pass for the first input. -/
theorem stream_tag_eq_stream_input (inputs tags : List Bytes) (tag : Bytes) :
    stream inputs (tags ++ [tag]) = stream (tag :: inputs) tags := by
  rw [stream, stream, List.append_assoc, List.singleton_append]

end Framing

namespace QuadraticResidue

/-- A preimage determines the stream and the counter. -/
theorem preimage_eq_iff {inputs tags inputs' tags' : List Bytes} {i j : ℕ} (hi : i < 2 ^ 32)
    (hj : j < 2 ^ 32) : preimage inputs tags i = preimage inputs' tags' j ↔
      Framing.stream inputs tags = Framing.stream inputs' tags' ∧ i = j := by
  constructor
  · intro h
    obtain ⟨hstream, hcounter⟩ :=
      List.append_inj' h (by rw [Bytes.length_ofNatBE, Bytes.length_ofNatBE])
    refine ⟨hstream, ?_⟩
    rw [← @Bytes.toNat_ofNat .big 4 _ hi, ← @Bytes.toNat_ofNat .big 4 _ hj]
    exact congrArg (Bytes.toNat .big) hcounter
  · rintro ⟨hstream, rfl⟩
    rw [preimage, preimage, hstream]

end QuadraticResidue

/-! ## Expanded messages -/

namespace ExpandMessage

/-- What stands before a closed tag can be told, and the tag. -/
theorem append_closing_eq_iff {front front' tag tag' : Bytes} (h : tag.length ≤ maxTagLength)
    (h' : tag'.length ≤ maxTagLength) :
    front ++ closing tag = front' ++ closing tag' ↔ front = front' ∧ tag = tag' := by
  constructor
  · intro heq
    rw [closing, closing, ← List.append_assoc, ← List.append_assoc] at heq
    obtain ⟨hbefore, hlast⟩ := List.append_inj' heq rfl
    have hlength : tag.length = tag'.length := by
      have hnat := congrArg UInt8.toNat (List.singleton_inj.1 hlast)
      rw [maxTagLength] at h h'
      rw [UInt8.toNat_ofNat', UInt8.toNat_ofNat'] at hnat
      omega
    exact List.append_inj' hbefore hlength
  · rintro ⟨rfl, rfl⟩
    rfl

/-- A seed determines the message and the tag. -/
theorem seedInput_eq_iff {message message' tag tag' : Bytes} {blockWidth count : ℕ}
    (h : tag.length ≤ maxTagLength) (h' : tag'.length ≤ maxTagLength) :
    seedInput blockWidth message tag count = seedInput blockWidth message' tag' count ↔
      message = message' ∧ tag = tag' := by
  rw [seedInput, seedInput, append_closing_eq_iff h h', List.append_left_inj,
    List.append_left_inj, List.append_right_inj]

theorem shortTag_of_length_le (hash : Bytes → Bytes) {tag : Bytes}
    (h : tag.length ≤ maxTagLength) : shortTag hash tag = tag := if_pos h

theorem length_shortTag_le {hash : Bytes → Bytes}
    (hhash : ∀ message, (hash message).length ≤ maxTagLength) (tag : Bytes) :
    (shortTag hash tag).length ≤ maxTagLength := by
  rw [shortTag]
  split
  · assumption
  · exact hhash _

end ExpandMessage

/-! ## Contexts -/

namespace P256

/-- The string whose digest seeds the hash of inputs under tags. -/
def preimage (inputs tags : List Bytes) : Bytes :=
  ExpandMessage.seedInput Sha3.rate256 inputs.flatten
    (ExpandMessage.shortTag Sha3.digest256 tags.flatten) uniformBytes

variable {inputs tags inputs' tags' : List Bytes}

/-- The seed under tags that are not too long: a block of zeros, the inputs, the number of
    bytes that are wanted, a zero, the tags and their length. -/
theorem preimage_eq (h : tags.flatten.length ≤ 255) :
    preimage inputs tags = List.replicate 136 0 ++ inputs.flatten ++ [0, 96] ++ [0] ++
      (tags.flatten ++ [UInt8.ofNat tags.flatten.length]) := by
  rw [preimage, ExpandMessage.shortTag_of_length_le _ h]
  rfl

theorem length_shortTag_le (tag : Bytes) :
    (ExpandMessage.shortTag Sha3.digest256 tag).length ≤ ExpandMessage.maxTagLength :=
  ExpandMessage.length_shortTag_le
    (fun message => (Sha3.length_digest256 message).trans_le (by decide)) tag

/-- A preimage determines the inputs as one string, and the tags as one string, or the digest
    in its place. -/
theorem preimage_eq_iff_shortTag : preimage inputs tags = preimage inputs' tags' ↔
    inputs.flatten = inputs'.flatten ∧
      ExpandMessage.shortTag Sha3.digest256 tags.flatten =
        ExpandMessage.shortTag Sha3.digest256 tags'.flatten :=
  ExpandMessage.seedInput_eq_iff (length_shortTag_le _) (length_shortTag_le _)

/-- A preimage determines the inputs as one string, and tags that are not too long as one
    string. -/
theorem preimage_eq_iff (h : tags.flatten.length ≤ 255) (h' : tags'.flatten.length ≤ 255) :
    preimage inputs tags = preimage inputs' tags' ↔
      inputs.flatten = inputs'.flatten ∧ tags.flatten = tags'.flatten := by
  rw [preimage_eq_iff_shortTag, ExpandMessage.shortTag_of_length_le _ h,
    ExpandMessage.shortTag_of_length_le _ h']

/-- The bytes of a message under a tag depend on the tag in use. -/
theorem expand_congr {message tag tag' : Bytes}
    (h : ExpandMessage.shortTag Sha3.digest256 tag = ExpandMessage.shortTag Sha3.digest256 tag') :
    expand message tag = expand message tag' := by
  simp only [expand, ExpandMessage.expand, h]

/-- Calls with one preimage have one hash, if both have tags or none has. -/
theorem hash_congr (htags : tags = [] ↔ tags' = [])
    (h : preimage inputs tags = preimage inputs' tags') :
    hash inputs tags = hash inputs' tags' := by
  obtain ⟨hinputs, htag⟩ := preimage_eq_iff_shortTag.1 h
  rw [hash, hash, hinputs, expand_congr htag]
  simp only [List.isEmpty_iff, htags]

end P256

namespace QuadraticResidue

variable {inputs tags inputs' tags' : List Bytes}

theorem hashFrom_congr
    (h : ∀ counter, preimage inputs tags counter = preimage inputs' tags' counter)
    (hash : Bytes → Bytes) (tries counter : ℕ) :
    hashFrom hash inputs tags tries counter = hashFrom hash inputs' tags' tries counter := by
  induction tries generalizing counter with
  | zero => rfl
  | succ tries ih => simp only [hashFrom, h counter, ih]

/-- Calls with the same preimages have the same hash. -/
theorem hashWith_congr
    (h : ∀ counter, preimage inputs tags counter = preimage inputs' tags' counter)
    (hash : Bytes → Bytes) : hashWith hash inputs tags = hashWith hash inputs' tags' := by
  rw [hashWith, hashWith, hashFrom_congr h]

end QuadraticResidue

namespace Context

/-- What a context hashes of a call; only the toy suite takes a counter. -/
def preimage : Context → (inputs tags : List Bytes) → (counter : ℕ) → Bytes
  | .p256, inputs, tags, _ => P256.preimage inputs tags
  | .ristretto255, inputs, tags, _ => Framing.stream inputs tags
  | .toy, inputs, tags, counter => QuadraticResidue.preimage inputs tags counter

variable {inputs tags inputs' tags' : List Bytes}

/-- The preimages are all that a hash sees of the strings of a call. -/
theorem hash_congr (c : Context) (htags : tags = [] ↔ tags' = [])
    (h : ∀ counter, c.preimage inputs tags counter = c.preimage inputs' tags' counter) :
    c.suite.hash inputs tags = c.suite.hash inputs' tags' := by
  cases c with
  | p256 => exact P256.hash_congr htags (h 0)
  | ristretto255 =>
    have hstream : Framing.stream inputs tags = Framing.stream inputs' tags' := h 0
    change Ristretto.hash inputs tags = Ristretto.hash inputs' tags'
    rw [Ristretto.hash, Ristretto.hash, hstream]
  | toy =>
    -- Unfolded no further than this: the counters are not to be run through.
    dsimp only [suite, QuadraticResidue.suite]
    exact QuadraticResidue.hashWith_congr h Sha3.digest256

/-- What preimages tell apart. A framed stream tells the tags followed by the inputs, and no
    more: the last tag can pass for the first input. A preimage of the toy suite tells the
    counter as well. One of P-256 tells the inputs as one string and the tags as one string.
    What is not told apart has the same hash. -/
theorem preimage_separates (h : Framing.Fits (tags ++ inputs))
    (h' : Framing.Fits (tags' ++ inputs')) :
    (Framing.stream inputs tags = Framing.stream inputs' tags' ↔
      tags ++ inputs = tags' ++ inputs') ∧
    (tags.length = tags'.length → (Framing.stream inputs tags = Framing.stream inputs' tags' ↔
      inputs = inputs' ∧ tags = tags')) ∧
    (∀ tag, Framing.stream inputs (tags ++ [tag]) = Framing.stream (tag :: inputs) tags) ∧
    (∀ i < 2 ^ 32, ∀ j < 2 ^ 32,
      (QuadraticResidue.preimage inputs tags i = QuadraticResidue.preimage inputs' tags' j ↔
        tags ++ inputs = tags' ++ inputs' ∧ i = j)) ∧
    (tags.flatten.length ≤ 255 → tags'.flatten.length ≤ 255 →
      P256.preimage inputs tags = List.replicate 136 0 ++ inputs.flatten ++ [0, 96] ++ [0] ++
        (tags.flatten ++ [UInt8.ofNat tags.flatten.length]) ∧
      (P256.preimage inputs tags = P256.preimage inputs' tags' ↔
        inputs.flatten = inputs'.flatten ∧ tags.flatten = tags'.flatten)) ∧
    ∀ c : Context, (tags = [] ↔ tags' = []) →
      (∀ counter, c.preimage inputs tags counter = c.preimage inputs' tags' counter) →
      c.suite.hash inputs tags = c.suite.hash inputs' tags' := by
  refine ⟨Framing.stream_eq_iff h h', Framing.stream_eq_iff_of_length_eq h h',
    Framing.stream_tag_eq_stream_input inputs tags, fun i hi j hj => ?_,
    fun htag htag' => ⟨P256.preimage_eq htag, P256.preimage_eq_iff htag htag'⟩,
    fun c => c.hash_congr⟩
  rw [QuadraticResidue.preimage_eq_iff hi hj, Framing.stream_eq_iff h h']

/-- The inputs `ab`, `c` and `a`, `bc` under one tag: the stream tells them apart, P-256 does
    not. With the tag `a` as an input, the stream does not tell either. -/
theorem preimage_separates_slices :
    Framing.stream [[97, 98], [99]] [[116]] ≠ Framing.stream [[97], [98, 99]] [[116]] ∧
      p256.suite.hash [[97, 98], [99]] [[116]] = p256.suite.hash [[97], [98, 99]] [[116]] ∧
      toy.suite.hash [[98, 99]] [[116], [97]] = toy.suite.hash [[97], [98, 99]] [[116]] := by
  have hslices : Framing.Fits [[116], [97, 98], [99]] := by simp [Framing.Fits]
  have hslices' : Framing.Fits [[116], [97], [98, 99]] := by simp [Framing.Fits]
  obtain ⟨hstream, _, _, _, hp256, hhash⟩ :=
    @preimage_separates [[97, 98], [99]] [[116]] [[97], [98, 99]] [[116]] hslices hslices'
  obtain ⟨_, _, _, htoy, _, hhash'⟩ :=
    @preimage_separates [[98, 99]] [[116], [97]] [[97], [98, 99]] [[116]] hslices' hslices'
  refine ⟨hstream.not.2 (by decide), hhash p256 (by decide) fun _ => ?_,
    hhash' toy (by decide) fun _ => rfl⟩
  exact (hp256 (by decide) (by decide)).2.2 (by decide)

end Context

end PrivateMatching
