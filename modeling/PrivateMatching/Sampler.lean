import PrivateMatching.Bytes

/-!
# Sampling from random bytes

Randomness is an endless stream of bytes that is read in order. A sampler reads
blocks of one width and keeps the first block that denotes a value. As a stream
may never hold such a block, sampling takes the number of blocks it may try, and
answers `none` when they run out; every larger number gives the same answer once
there is one.

* `Sampler.draw_succ`: an answer does not depend on the number of tries left.
-/

namespace PrivateMatching

/-- An endless stream of random bytes and how many of them were read. -/
structure ByteSource where
  /-- The byte at a place of the stream. -/
  byte : Nat → UInt8
  /-- The number of bytes read so far. -/
  used : Nat

namespace ByteSource

/-- The next `count` bytes of a source. -/
def next (source : ByteSource) (count : Nat) : Bytes :=
  (List.range count).map fun i => source.byte (source.used + i)

/-- A source after `count` more bytes were read. -/
def skip (source : ByteSource) (count : Nat) : ByteSource :=
  { source with used := source.used + count }

/-- The source that gives some bytes in order, and the byte one for ever after. -/
def padded (bytes : Bytes) : ByteSource where
  byte i := bytes.getD i 1
  used := 0

end ByteSource

/-- How values of a type are drawn from blocks of random bytes. -/
structure Sampler (α : Type) where
  /-- The number of bytes of a block. -/
  width : Nat
  /-- The value that a block denotes; a block without one is passed over. -/
  ofBlock : Bytes → Option α

namespace Sampler

/-- The first value among the next `tries` blocks, and the source behind its
    block. -/
def draw (S : Sampler α) : (tries : Nat) → ByteSource → Option (α × ByteSource)
  | 0, _ => none
  | tries + 1, source =>
    match S.ofBlock (source.next S.width) with
    | some a => some (a, source.skip S.width)
    | none => S.draw tries (source.skip S.width)

/-- The sampler of the images of the sampled values. -/
def map (f : α → β) (S : Sampler α) : Sampler β where
  width := S.width
  ofBlock block := (S.ofBlock block).map f

theorem draw_succ {S : Sampler α} {tries : Nat} {source : ByteSource} {r : α × ByteSource}
    (h : S.draw tries source = some r) : S.draw (tries + 1) source = some r := by
  induction tries generalizing source with
  | zero => simp [draw] at h
  | succ tries ih =>
    rw [draw] at h ⊢
    split at h
    · exact h
    · exact ih h

/-- Drawing images is drawing and taking the image. -/
theorem draw_map (f : α → β) (S : Sampler α) (tries : Nat) (source : ByteSource) :
    (S.map f).draw tries source = (S.draw tries source).map fun r => (f r.1, r.2) := by
  induction tries generalizing source with
  | zero => rfl
  | succ tries ih =>
    simp only [draw, map]
    cases S.ofBlock (source.next S.width) with
    | some a => rfl
    | none => exact ih _

end Sampler

end PrivateMatching
