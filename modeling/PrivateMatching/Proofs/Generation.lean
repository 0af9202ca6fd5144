import PrivateMatching.Context
import PrivateMatching.Proofs.Key

/-!
# Which key is drawn

Drawing a key reads a source until a draw is not zero, and a draw of P-256 reads it until a
block is below the order: neither loop need end. With a limit on the tries, an answer does not
depend on the limit (`Key.generate_mono`), so the loop ends if and only if there is an answer
for some limit.

What is drawn is said without a limit by relations: `Context.Draws` is the rule of a context
for one scalar, and `Context.DrawsAll` is a run of draws, each from what the one before left. A
key that is drawn is the first scalar of such a run that is not zero
(`Context.exists_generate_iff`), and what is left of the source is what this draw left: no byte
behind it makes a difference (`Key.generate_congr`).
-/

namespace PrivateMatching

/-! ## Sources -/

namespace ByteSource

variable {source : ByteSource}

theorem skip_skip (source : ByteSource) (a b : ℕ) :
    (source.skip a).skip b = source.skip (a + b) := by
  simp only [skip, Nat.add_assoc]

/-- The next bytes of a source are told by the bytes from its place on. -/
theorem next_congr {byte : ℕ → UInt8} {count : ℕ}
    (h : ∀ i, source.used ≤ i → i < source.used + count → byte i = source.byte i) :
    next ⟨byte, source.used⟩ count = source.next count :=
  List.map_congr_left fun _ hi =>
    h _ (Nat.le_add_right _ _) (Nat.add_lt_add_left (List.mem_range.1 hi) _)

/-- Behind the given bytes, a padded source gives the byte one. -/
theorem next_skip_padded {bytes : Bytes} {place : ℕ} (h : bytes.length ≤ place) (count : ℕ) :
    ((padded bytes).skip place).next count = List.replicate count 1 := by
  refine List.eq_replicate_iff.2 ⟨by rw [next, List.length_map, List.length_range], fun b hb => ?_⟩
  obtain ⟨i, _, rfl⟩ := List.mem_map.1 hb
  have hplace : bytes.length ≤ ((padded bytes).skip place).used + i := by
    simp only [padded, skip]
    omega
  simp only [padded, skip] at hplace ⊢
  rw [List.getD_eq_getElem?_getD, List.getElem?_eq_none hplace, Option.getD_none]

end ByteSource

/-! ## Samplers -/

namespace Sampler

variable {α : Type} {S : Sampler α} {tries : ℕ} {source rest : ByteSource} {a : α}

theorem draw_of_some (h : S.ofBlock (source.next S.width) = some a) (tries : ℕ) :
    S.draw (tries + 1) source = some (a, source.skip S.width) := by
  rw [draw, h]

theorem draw_of_none (h : S.ofBlock (source.next S.width) = none) (tries : ℕ) :
    S.draw (tries + 1) source = S.draw tries (source.skip S.width) := by
  rw [draw, h]

/-- More tries do not change an answer. -/
theorem draw_mono {more : ℕ} (h : S.draw tries source = some (a, rest)) (hle : tries ≤ more) :
    S.draw more source = some (a, rest) := by
  induction hle with
  | refl => exact h
  | step _ ih => exact draw_succ ih

/-- A draw reads at least one block, and changes no byte. -/
theorem rest_of_draw (h : S.draw tries source = some (a, rest)) :
    rest.byte = source.byte ∧ source.used + S.width ≤ rest.used := by
  induction tries generalizing source with
  | zero => cases h
  | succ tries ih =>
    cases hblock : S.ofBlock (source.next S.width) with
    | some b =>
      rw [draw_of_some hblock] at h
      cases h
      exact ⟨rfl, le_rfl⟩
    | none =>
      rw [draw_of_none hblock] at h
      obtain ⟨hbyte, hused⟩ := ih h
      exact ⟨hbyte, (Nat.le_add_right _ _).trans hused⟩

/-- The bytes behind a draw make no difference. -/
theorem draw_congr {byte : ℕ → UInt8} (h : S.draw tries source = some (a, rest))
    (hbyte : ∀ i, source.used ≤ i → i < rest.used → byte i = source.byte i) :
    S.draw tries ⟨byte, source.used⟩ = some (a, ⟨byte, rest.used⟩) := by
  induction tries generalizing source with
  | zero => cases h
  | succ tries ih =>
    have hnext : ByteSource.next ⟨byte, source.used⟩ S.width = source.next S.width :=
      ByteSource.next_congr fun i hi hlt => hbyte i hi (hlt.trans_le (rest_of_draw h).2)
    cases hblock : S.ofBlock (source.next S.width) with
    | some b =>
      rw [draw_of_some hblock] at h
      rw [draw_of_some (hnext.symm ▸ hblock)]
      cases h
      rfl
    | none =>
      rw [draw_of_none hblock] at h
      rw [draw_of_none (hnext.symm ▸ hblock)]
      exact ih h fun i hi => hbyte i ((Nat.le_add_right _ _).trans hi)

end Sampler

/-! ## Keys -/

namespace Key

variable {C : Suite} {tries : ℕ} {source rest : ByteSource} {key : Key C}

/-- One round: a scalar is drawn, and it is that of the key, or it is zero and the key is
    drawn from what is left. -/
theorem generate_succ_eq_some_iff : generate C (tries + 1) source = some (key, rest) ↔
    ∃ s mid, C.scalarSampler.draw (tries + 1) source = some (s, mid) ∧
      (s = key.scalar ∧ mid = rest ∨ s.val = 0 ∧ generate C tries mid = some (key, rest)) := by
  rw [generate]
  cases C.scalarSampler.draw (tries + 1) source with
  | none => simp
  | some r =>
    obtain ⟨s, mid⟩ := r
    by_cases hs : s.val = 0
    · simp only [ofScalar, dif_pos hs]
      constructor
      · exact fun h => ⟨s, mid, rfl, .inr ⟨hs, h⟩⟩
      · rintro ⟨_, _, hdraw, ⟨rfl, rfl⟩ | ⟨_, h⟩⟩ <;> cases hdraw
        · exact absurd hs key.ne_zero
        · exact h
    · simp only [ofScalar, dif_neg hs]
      constructor
      · rintro ⟨⟩
        exact ⟨_, _, rfl, .inl ⟨rfl, rfl⟩⟩
      · rintro ⟨_, _, hdraw, ⟨rfl, rfl⟩ | ⟨hzero, _⟩⟩ <;> cases hdraw
        · rfl
        · exact absurd hzero hs

theorem generate_succ (h : generate C tries source = some (key, rest)) :
    generate C (tries + 1) source = some (key, rest) := by
  induction tries generalizing source with
  | zero => cases h
  | succ tries ih =>
    obtain ⟨s, mid, hdraw, hrest⟩ := generate_succ_eq_some_iff.1 h
    exact generate_succ_eq_some_iff.2
      ⟨s, mid, Sampler.draw_succ hdraw, hrest.imp_right fun ⟨hs, hmid⟩ => ⟨hs, ih hmid⟩⟩

/-- More tries do not change an answer. -/
theorem generate_mono {more : ℕ} (h : generate C tries source = some (key, rest))
    (hle : tries ≤ more) : generate C more source = some (key, rest) := by
  induction hle with
  | refl => exact h
  | step _ ih => exact generate_succ ih

theorem used_le_of_generate (h : generate C tries source = some (key, rest)) :
    source.used ≤ rest.used := by
  induction tries generalizing source with
  | zero => cases h
  | succ tries ih =>
    obtain ⟨s, mid, hdraw, hrest⟩ := generate_succ_eq_some_iff.1 h
    have hmid : source.used ≤ mid.used :=
      (Nat.le_add_right _ _).trans (Sampler.rest_of_draw hdraw).2
    rcases hrest with ⟨_, rfl⟩ | ⟨_, hrest⟩
    · exact hmid
    · exact hmid.trans (ih hrest)

/-- The bytes behind the last draw make no difference. -/
theorem generate_congr {byte : ℕ → UInt8} (h : generate C tries source = some (key, rest))
    (hbyte : ∀ i, source.used ≤ i → i < rest.used → byte i = source.byte i) :
    generate C tries ⟨byte, source.used⟩ = some (key, ⟨byte, rest.used⟩) := by
  induction tries generalizing source with
  | zero => cases h
  | succ tries ih =>
    obtain ⟨s, mid, hdraw, hrest⟩ := generate_succ_eq_some_iff.1 h
    refine generate_succ_eq_some_iff.2 ?_
    rcases hrest with ⟨hs, rfl⟩ | ⟨hs, hrest⟩
    · exact ⟨s, _, Sampler.draw_congr hdraw hbyte, .inl ⟨hs, rfl⟩⟩
    · have hmid := used_le_of_generate hrest
      obtain ⟨hsame, hused⟩ := Sampler.rest_of_draw hdraw
      refine ⟨s, _, Sampler.draw_congr hdraw fun i hi hlt => hbyte i hi (hlt.trans_le hmid),
        .inr ⟨hs, ih hrest fun i hi hlt => ?_⟩⟩
      rw [hsame]
      exact hbyte i ((Nat.le_add_right _ _).trans (hused.trans hi)) hlt

/-! ## When a key is drawn -/

/-- A key is drawn from a source if one is drawn from what is behind the first block. -/
theorem exists_generate_of_skip
    (h : ∃ tries r, generate C tries (source.skip C.scalarSampler.width) = some r) :
    ∃ tries r, generate C tries source = some r := by
  obtain ⟨tries, ⟨key, rest⟩, h⟩ := h
  cases hblock : C.scalarSampler.ofBlock (source.next C.scalarSampler.width) with
  | some s =>
    have hdraw := Sampler.draw_of_some hblock tries
    by_cases hs : s.val = 0
    · exact ⟨tries + 1, (key, rest), generate_succ_eq_some_iff.2 ⟨s, _, hdraw, .inr ⟨hs, h⟩⟩⟩
    · exact ⟨tries + 1, (⟨s, hs⟩, _),
        generate_succ_eq_some_iff.2 ⟨s, _, hdraw, .inl ⟨rfl, rfl⟩⟩⟩
  | none =>
    -- The first draw is the one from behind the block.
    cases tries with
    | zero => cases h
    | succ tries =>
      obtain ⟨s, mid, hdraw, hrest⟩ := generate_succ_eq_some_iff.1 h
      rw [← Sampler.draw_of_none hblock] at hdraw
      exact ⟨tries + 2, (key, rest), generate_succ_eq_some_iff.2
        ⟨s, mid, hdraw, hrest.imp_right fun ⟨hs, hmid⟩ => ⟨hs, generate_succ hmid⟩⟩⟩

/-- A key is drawn from a source with a block of a scalar that is not zero. -/
theorem exists_generate_of_block (blocks : ℕ) {s : Scalar C.order}
    (h : C.scalarSampler.ofBlock ((source.skip (blocks * C.scalarSampler.width)).next
      C.scalarSampler.width) = some s) (hs : s.val ≠ 0) :
    ∃ tries r, generate C tries source = some r := by
  induction blocks generalizing source with
  | zero =>
    rw [Nat.zero_mul] at h
    exact ⟨1, (⟨s, hs⟩, _), generate_succ_eq_some_iff.2
      ⟨s, _, Sampler.draw_of_some h 0, .inl ⟨rfl, rfl⟩⟩⟩
  | succ blocks ih =>
    refine exists_generate_of_skip (ih ?_)
    rwa [ByteSource.skip_skip, Nat.add_comm, ← Nat.succ_mul]

end Key

/-! ## Draws -/

/-- A scalar of P-256 is drawn: blocks of 32 bytes, most significant first, are read until
    one is below the order. -/
inductive P256.Draws : ByteSource → ℕ → ByteSource → Prop
  /-- The next block is below the order. -/
  | taken {source : ByteSource} (h : Bytes.toNatBE (source.next 32) < order) :
    Draws source (Bytes.toNatBE (source.next 32)) (source.skip 32)
  /-- The next block is not below the order. -/
  | passed {source rest : ByteSource} {s : ℕ} (h : order ≤ Bytes.toNatBE (source.next 32))
    (hrest : Draws (source.skip 32) s rest) : Draws source s rest

namespace Context

/-- A scalar is drawn, with what is left of the source. ristretto255 takes 64 bytes modulo the
    order, and the toy suite takes four, least significant first. -/
def Draws : Context → ByteSource → ℕ → ByteSource → Prop
  | .p256, source, s, rest => P256.Draws source s rest
  | .ristretto255, source, s, rest =>
    s = Bytes.toNatLE (source.next 64) % Ristretto.order ∧ rest = source.skip 64
  | .toy, source, s, rest =>
    s = Bytes.toNatLE (source.next 4) % QuadraticResidue.order ∧ rest = source.skip 4

/-- Scalars are drawn one after the other. -/
inductive DrawsAll (c : Context) : ByteSource → List ℕ → ByteSource → Prop
  /-- Nothing is drawn. -/
  | nil {source : ByteSource} : DrawsAll c source [] source
  /-- A scalar is drawn, and the others from what is left. -/
  | cons {source mid rest : ByteSource} {s : ℕ} {draws : List ℕ} (h : c.Draws source s mid)
    (hrest : DrawsAll c mid draws rest) : DrawsAll c source (s :: draws) rest

end Context

namespace P256

theorem Draws.lt_order {source rest : ByteSource} {s : ℕ} (h : Draws source s rest) :
    s < order := by
  induction h with
  | taken h => exact h
  | passed _ _ ih => exact ih

theorem ofBlock_of_lt {block : Bytes} (h : Bytes.toNatBE block < order) :
    scalarSampler.ofBlock block = some ⟨Bytes.toNatBE block, h⟩ := by
  simp only [scalarSampler, dif_pos h]

theorem ofBlock_of_order_le {block : Bytes} (h : order ≤ Bytes.toNatBE block) :
    scalarSampler.ofBlock block = none := by
  simp only [scalarSampler, dif_neg h.not_gt]

theorem Draws.exists_draw {source rest : ByteSource} {s : ℕ} (h : Draws source s rest) :
    ∃ tries, scalarSampler.draw tries source = some (⟨s, h.lt_order⟩, rest) := by
  induction h with
  | taken h => exact ⟨1, Sampler.draw_of_some (ofBlock_of_lt h) 0⟩
  | passed h _ ih =>
    obtain ⟨tries, hdraw⟩ := ih
    exact ⟨tries + 1, (Sampler.draw_of_none (ofBlock_of_order_le h) tries).trans hdraw⟩

/-- The sampler of P-256 finds what is drawn. -/
theorem exists_draw_iff {source rest : ByteSource} {s : Scalar order} :
    (∃ tries, scalarSampler.draw tries source = some (s, rest)) ↔ Draws source s.val rest := by
  refine ⟨?_, Draws.exists_draw⟩
  rintro ⟨tries, hdraw⟩
  induction tries generalizing source with
  | zero => cases hdraw
  | succ tries ih =>
    rcases lt_or_ge (Bytes.toNatBE (source.next 32)) order with h | h
    · rw [Sampler.draw_of_some (ofBlock_of_lt h)] at hdraw
      obtain ⟨rfl, rfl⟩ := Prod.mk.inj (Option.some.inj hdraw)
      exact .taken h
    · rw [Sampler.draw_of_none (ofBlock_of_order_le h)] at hdraw
      exact .passed h (ih hdraw)

end P256

/-- A sampler that takes every block draws from the first one. -/
theorem Sampler.exists_draw_iff_of_block {α : Type} {S : Sampler α} {source rest : ByteSource}
    {a b : α} (h : S.ofBlock (source.next S.width) = some b) :
    (∃ tries, S.draw tries source = some (a, rest)) ↔ a = b ∧ rest = source.skip S.width := by
  constructor
  · rintro ⟨_ | tries, hdraw⟩
    · cases hdraw
    · rw [draw_of_some h] at hdraw
      cases hdraw
      exact ⟨rfl, rfl⟩
  · rintro ⟨rfl, rfl⟩
    exact ⟨1, draw_of_some h 0⟩

namespace Context

variable (c : Context) {source rest : ByteSource}

theorem lt_order_of_draws {s : ℕ} (h : c.Draws source s rest) : s < c.suite.order := by
  cases c with
  | p256 => exact P256.Draws.lt_order h
  | ristretto255 => exact h.1.trans_lt (Nat.mod_lt _ (by decide))
  | toy => exact h.1.trans_lt (Nat.mod_lt _ (by decide))

/-- The sampler of a context finds what is drawn. -/
theorem exists_draw_iff {s : Scalar c.suite.order} :
    (∃ tries, c.suite.scalarSampler.draw tries source = some (s, rest)) ↔
      c.Draws source s.val rest := by
  cases c with
  | p256 => exact P256.exists_draw_iff
  | ristretto255 =>
    exact (Sampler.exists_draw_iff_of_block (S := Ristretto.scalarSampler) rfl).trans
      (and_congr_left' Fin.ext_iff)
  | toy =>
    exact (Sampler.exists_draw_iff_of_block (S := QuadraticResidue.scalarSampler) rfl).trans
      (and_congr_left' Fin.ext_iff)

/-- A key that is drawn is the first draw that is not zero, and what is left is what this draw
    left. -/
theorem exists_generate_iff {key : Key c.suite} :
    (∃ tries, Key.generate c.suite tries source = some (key, rest)) ↔
      ∃ zeros, c.DrawsAll source (List.replicate zeros 0 ++ [key.scalar.val]) rest := by
  constructor
  · rintro ⟨tries, h⟩
    induction tries generalizing source with
    | zero => cases h
    | succ tries ih =>
      obtain ⟨s, mid, hdraw, hrest⟩ := Key.generate_succ_eq_some_iff.1 h
      have hs := c.exists_draw_iff.1 ⟨_, hdraw⟩
      rcases hrest with ⟨rfl, rfl⟩ | ⟨hzero, hrest⟩
      · exact ⟨0, .cons hs .nil⟩
      · obtain ⟨zeros, hzeros⟩ := ih hrest
        exact ⟨zeros + 1, .cons (hzero ▸ hs) hzeros⟩
  · rintro ⟨zeros, h⟩
    induction zeros generalizing source with
    | zero =>
      cases h with
      | cons hs hrest =>
        cases hrest
        obtain ⟨tries, hdraw⟩ := c.exists_draw_iff.2 hs
        exact ⟨tries + 1, Key.generate_succ_eq_some_iff.2
          ⟨_, _, Sampler.draw_succ hdraw, .inl ⟨rfl, rfl⟩⟩⟩
    | succ zeros ih =>
      cases h with
      | @cons _ mid _ _ _ hs hrest =>
        obtain ⟨tries, hdraw⟩ := (c.exists_draw_iff (s := c.suite.scalars.zero)).2 hs
        obtain ⟨more, hmore⟩ := ih hrest
        -- Enough tries for the draw and for what comes after it.
        refine ⟨max tries more + 1, Key.generate_succ_eq_some_iff.2
          ⟨c.suite.scalars.zero, mid, ?_, .inr ⟨rfl, ?_⟩⟩⟩
        · exact Sampler.draw_mono hdraw (Nat.le_succ_of_le (le_max_left _ _))
        · exact Key.generate_mono hmore (le_max_right _ _)

/-- Among draws that are not all zero there is a first one, and a key is drawn. -/
theorem DrawsAll.exists_generate {c : Context} {draws : List ℕ}
    (h : c.DrawsAll source draws rest) (hne : ∃ s ∈ draws, s ≠ 0) :
    ∃ (zeros : ℕ) (key : Key c.suite) (rest : ByteSource),
      c.DrawsAll source (List.replicate zeros 0 ++ [key.scalar.val]) rest := by
  induction h with
  | nil => exact absurd hne (by simp)
  | @cons source mid rest s draws hs _ ih =>
    by_cases hzero : s = 0
    · obtain ⟨s', hmem, hs'⟩ := hne
      have htail : s' ∈ draws := (List.mem_cons.1 hmem).resolve_left fun h => hs' (h.trans hzero)
      obtain ⟨zeros, key, rest, hrest⟩ := ih ⟨s', htail, hs'⟩
      exact ⟨zeros + 1, key, rest, .cons (hzero ▸ hs) hrest⟩
    · exact ⟨0, ⟨⟨s, c.lt_order_of_draws hs⟩, hzero⟩, mid, .cons hs .nil⟩

/-- The byte one, repeated, is a block of a scalar that is not zero. -/
theorem exists_ofBlock_ones :
    ∃ s : Scalar c.suite.order, c.suite.scalarSampler.ofBlock
      (List.replicate c.suite.scalarSampler.width 1) = some s ∧ s.val ≠ 0 := by
  cases c with
  | p256 =>
    have hlt : Bytes.toNatBE (List.replicate 32 1) < P256.order := by decide +kernel
    have hne : Bytes.toNatBE (List.replicate 32 1) ≠ 0 := by decide +kernel
    exact ⟨_, P256.ofBlock_of_lt hlt, hne⟩
  | ristretto255 => exact ⟨_, rfl, by decide +kernel⟩
  | toy => exact ⟨_, rfl, by decide +kernel⟩

/-- A key is drawn from any bytes followed by the byte one for ever. -/
theorem exists_generate_padded (bytes : Bytes) :
    ∃ tries r, Key.generate c.suite tries (ByteSource.padded bytes) = some r := by
  obtain ⟨s, hblock, hs⟩ := c.exists_ofBlock_ones
  have hwidth : 0 < c.suite.scalarSampler.width := by cases c <;> decide
  -- By the block with the number of the bytes, all given bytes are read.
  refine Key.exists_generate_of_block bytes.length ?_ hs
  rwa [ByteSource.next_skip_padded (Nat.le_mul_of_pos_right _ hwidth)]

/-- Drawing a key ends if and only if some scalar that is drawn from the source is not zero.
    The key is the first one, what is left of the source is what its draw left, no byte behind
    it makes a difference, nor do more tries, and the key is loaded from what it exports. It
    ends on any bytes followed by the byte one for ever. -/
theorem generate_exact (source : ByteSource) :
    ((∃ tries key rest, Key.generate c.suite tries source = some (key, rest)) ↔
      ∃ draws rest, c.DrawsAll source draws rest ∧ ∃ s ∈ draws, s ≠ 0) ∧
    (∀ key rest, (∃ tries, Key.generate c.suite tries source = some (key, rest)) ↔
      ∃ zeros, c.DrawsAll source (List.replicate zeros 0 ++ [key.scalar.val]) rest) ∧
    (∀ tries key rest, Key.generate c.suite tries source = some (key, rest) →
      (∀ more ≥ tries, Key.generate c.suite more source = some (key, rest)) ∧
      (∀ byte : ℕ → UInt8, (∀ i, source.used ≤ i → i < rest.used → byte i = source.byte i) →
        Key.generate c.suite tries ⟨byte, source.used⟩ = some (key, ⟨byte, rest.used⟩)) ∧
      ∃ loaded, Key.load c.suite key.toBytes = .ok loaded ∧ loaded.toBytes = key.toBytes) ∧
    ∀ bytes, ∃ tries key rest,
      Key.generate c.suite tries (ByteSource.padded bytes) = some (key, rest) := by
  refine ⟨⟨?_, ?_⟩, fun key rest => c.exists_generate_iff, fun tries key rest h => ⟨?_, ?_, ?_⟩,
    fun bytes => ?_⟩
  · rintro ⟨tries, key, rest, h⟩
    obtain ⟨zeros, hdraws⟩ := c.exists_generate_iff.1 ⟨tries, h⟩
    exact ⟨_, rest, hdraws, key.scalar.val, by simp, key.ne_zero⟩
  · rintro ⟨draws, rest, hdraws, hne⟩
    obtain ⟨zeros, key, rest, hfirst⟩ := hdraws.exists_generate hne
    obtain ⟨tries, h⟩ := c.exists_generate_iff.2 ⟨zeros, hfirst⟩
    exact ⟨tries, key, rest, h⟩
  · exact fun more hle => Key.generate_mono h hle
  · exact fun byte hbyte => Key.generate_congr h hbyte
  · exact ⟨key, Key.load_toBytes key, rfl⟩
  · obtain ⟨tries, ⟨key, rest⟩, h⟩ := c.exists_generate_padded bytes
    exact ⟨tries, key, rest, h⟩

/-- A draw of 1019, which is zero, and one of five: the key is drawn from eight bytes, and the
    ninth makes no difference. -/
theorem generate_exact_second_draw :
    (∃ rest : ByteSource, rest.used = 8 ∧
      Key.generate toy.suite 100 (ByteSource.padded [251, 3, 0, 0, 5, 0, 0, 0, 7]) =
        some (⟨(5 : Scalar 1019), by decide⟩, rest)) ∧
    ∃ rest : ByteSource, rest.used = 8 ∧
      Key.generate toy.suite 2 (ByteSource.padded [251, 3, 0, 0, 5, 0, 0, 0]) =
        some (⟨(5 : Scalar 1019), by decide⟩, rest) := by
  have h : Key.generate toy.suite 2 (ByteSource.padded [251, 3, 0, 0, 5, 0, 0, 0, 7]) =
      some (⟨(5 : Scalar 1019), by decide⟩, _) := rfl
  obtain ⟨_, _, hdrawn, _⟩ := generate_exact toy (ByteSource.padded [251, 3, 0, 0, 5, 0, 0, 0, 7])
  obtain ⟨hmore, hbyte, _⟩ := hdrawn _ _ _ h
  have hsame : ∀ i < 8, ([251, 3, 0, 0, 5, 0, 0, 0] : Bytes).getD i 1 =
      ([251, 3, 0, 0, 5, 0, 0, 0, 7] : Bytes).getD i 1 := by decide
  exact ⟨⟨_, rfl, hmore 100 (by decide)⟩, ⟨_, rfl, hbyte _ fun i _ hi => hsame i hi⟩⟩

end Context

end PrivateMatching
