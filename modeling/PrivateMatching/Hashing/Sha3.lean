import PrivateMatching.Bytes

/-!
# SHA3

The Keccak permutation on 25 lanes of 64 bits, the sponge over it, and the two
fixed-length hashes `Sha3.digest256` and `Sha3.digest512`. Lane `(x, y)` of a
state is at index `x + 5 * y`.

* `Sha3.length_digest256`, `Sha3.length_digest512`: a digest has its stated
  length, whatever is hashed.
-/

namespace PrivateMatching

namespace Keccak

/-- A state of the permutation: 25 lanes of 64 bits. -/
abbrev State := Vector UInt64 25

/-- The state of all zero bits. -/
def State.zero : State := Vector.replicate 25 0

/-- A lane rotated towards its high end. -/
def rotate (lane amount : UInt64) : UInt64 := lane <<< amount ||| lane >>> (64 - amount)

/-- The amounts by which the lanes are rotated, by index. -/
def rotations : Vector UInt64 25 :=
  #v[0, 1, 62, 28, 27, 36, 44, 6, 55, 20, 3, 10, 43, 25, 39, 41, 45, 15, 21, 8, 18, 2, 61, 56, 14]

/-- The constants that tell the 24 rounds apart. -/
def roundConstants : List UInt64 :=
  [0x0000000000000001, 0x0000000000008082, 0x800000000000808a, 0x8000000080008000,
   0x000000000000808b, 0x0000000080000001, 0x8000000080008081, 0x8000000000008009,
   0x000000000000008a, 0x0000000000000088, 0x0000000080008009, 0x000000008000000a,
   0x000000008000808b, 0x800000000000008b, 0x8000000000008089, 0x8000000000008003,
   0x8000000000008002, 0x8000000000000080, 0x000000000000800a, 0x800000008000000a,
   0x8000000080008081, 0x8000000000008080, 0x0000000080000001, 0x8000000080008008]

/-- The parity of each column. -/
def parities (s : State) : Vector UInt64 5 :=
  Vector.ofFn fun x =>
    s[x.val] ^^^ s[x.val + 5] ^^^ s[x.val + 10] ^^^ s[x.val + 15] ^^^ s[x.val + 20]

/-- The step θ: every lane takes the parities of two columns. -/
def theta (s : State) : State :=
  let p := parities s
  Vector.ofFn fun i =>
    s[i] ^^^ p[Fin.ofNat 5 (i.val + 4)] ^^^ rotate p[Fin.ofNat 5 (i.val + 1)] 1

/-- The index of the lane that the steps ρ and π move to an index: lane
    `(x + 3 * y, x)` moves to `(x, y)`. -/
def rhoPiSource (i : Fin 25) : Fin 25 :=
  Fin.ofNat 25 ((i.val % 5 + 3 * (i.val / 5)) % 5 + 5 * (i.val % 5))

/-- The steps ρ and π: every lane is rotated and moved. -/
def rhoPi (s : State) : State :=
  Vector.ofFn fun i => rotate s[rhoPiSource i] rotations[rhoPiSource i]

/-- The index of the lane `steps` to the right in the same row. -/
def rightOf (i : Fin 25) (steps : Nat) : Fin 25 :=
  Fin.ofNat 25 ((i.val + steps) % 5 + 5 * (i.val / 5))

/-- The step χ: every lane takes the two lanes to its right in its row. -/
def chi (s : State) : State :=
  Vector.ofFn fun i => s[i] ^^^ (~~~ s[rightOf i 1] &&& s[rightOf i 2])

/-- One round: the steps θ, ρ, π, χ, and the round's constant on the first lane. -/
def round (s : State) (constant : UInt64) : State :=
  let s := chi (rhoPi (theta s))
  s.set 0 (s[0] ^^^ constant)

/-- The permutation: 24 rounds. -/
def permute (s : State) : State := roundConstants.foldl round s

/-- The state with a block of bytes added to its first lanes, permuted. -/
def absorbBlock (s : State) (block : Bytes) : State :=
  permute (Vector.ofFn fun i =>
    s[i] ^^^ UInt64.ofNat (Bytes.toNatLE ((block.drop (8 * i.val)).take 8)))

/-- The state with `blocks` blocks of `rate` bytes absorbed in order. -/
def absorb (rate : Nat) : (blocks : Nat) → State → Bytes → State
  | 0, s, _ => s
  | blocks + 1, s, bytes => absorb rate blocks (absorbBlock s (bytes.take rate)) (bytes.drop rate)

/-- The bytes of a state, lane by lane. -/
def State.toBytes (s : State) : Bytes := s.toList.flatMap fun lane => Bytes.ofNatLE 8 lane.toNat

theorem State.length_toBytes (s : State) : s.toBytes.length = 200 := by
  have : s.toBytes.length = 8 * s.toList.length := by
    rw [State.toBytes]
    induction s.toList with
    | nil => rfl
    | cons lane lanes ih =>
      rw [List.flatMap_cons, List.length_append, ih, Bytes.length_ofNatLE, List.length_cons]
      omega
  simpa using this

end Keccak

namespace Sha3

/-- What closes a message of the given length, so that whole blocks are hashed:
    the bits 01 that mark the hash, a one, zeros, and a one that ends the block. -/
def padding (rate length : Nat) : Bytes :=
  match rate - length % rate with
  | 0 | 1 => [0x86]
  | zeros + 2 => 0x06 :: List.replicate zeros 0 ++ [0x80]

/-- The digest of `width` bytes, with blocks of `rate` bytes. -/
def digest (rate width : Nat) (message : Bytes) : Bytes :=
  let blocks := message.length / rate + 1
  let final := Keccak.absorb rate blocks Keccak.State.zero
    (message ++ padding rate message.length)
  final.toBytes.take width

/-- The block width of `digest256`. -/
def rate256 : Nat := 136

/-- The 256-bit hash. -/
def digest256 (message : Bytes) : Bytes := digest rate256 32 message

/-- The 512-bit hash. -/
def digest512 (message : Bytes) : Bytes := digest 72 64 message

@[simp] theorem length_digest256 (message : Bytes) : (digest256 message).length = 32 := by
  simp [digest256, digest, Keccak.State.length_toBytes]

@[simp] theorem length_digest512 (message : Bytes) : (digest512 message).length = 64 := by
  simp [digest512, digest, Keccak.State.length_toBytes]

end Sha3

end PrivateMatching
