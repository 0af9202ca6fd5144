import PrivateMatching.Proofs.P256.HashToCurve
import PrivateMatching.Proofs.QuadraticResidue.Reading

/-!
# The elements that operations produce

An element is reachable if the operations of the suite produce it: the fixed
elements, the elements that are decoded, hashed or drawn, and the products and
powers of reachable elements (`Suite.Reachable`). What every operation keeps is
an invariant (`Suite.Invariant`), and holds of all of them.

The sound residues are an invariant of the toy suite, and the points of the curve
are one of P-256. So reachable elements are members of their groups, and they are
read back from their encodings, except the identity
(`Suite.reachable_mem_and_readsBack`).
-/

namespace PrivateMatching

/-- What every block gives, a sampler draws. -/
theorem Sampler.of_draw {α : Type} {S : Sampler α} {P : α → Prop}
    (hP : ∀ block a, S.ofBlock block = some a → P a) {tries : ℕ} {source rest : ByteSource} {a : α}
    (h : S.draw tries source = some (a, rest)) : P a := by
  induction tries generalizing source with
  | zero => cases h
  | succ tries ih =>
    rw [draw] at h
    split at h
    · rename_i hblock
      cases h
      exact hP _ _ hblock
    · exact ih h

/-- A sampler of images draws images only. -/
theorem Sampler.of_ofBlock_map {α β : Type} {S : Sampler α} {f : α → β} {P : β → Prop}
    (hP : ∀ a, P (f a)) {block : Bytes} {b : β} (h : (S.map f).ofBlock block = some b) : P b := by
  obtain ⟨a, _, rfl⟩ := Option.map_eq_some_iff.1 h
  exact hP a

namespace Suite

variable {C : Suite}

/-- The elements that the operations of a suite produce. -/
inductive Reachable (C : Suite) : C.Element → Prop
  | one : Reachable C C.one
  | generator : Reachable C C.generator
  | generatorExp (s : Scalar C.order) : Reachable C (C.generatorExp s)
  | decode {bytes : Bytes} {x : C.Element} (h : C.decode bytes = .ok x) : Reachable C x
  | hash {inputs tags : List Bytes} {x : C.Element} (h : C.hash inputs tags = .ok x) :
    Reachable C x
  | random {tries : ℕ} {source rest : ByteSource} {x : C.Element}
    (h : C.elementSampler.draw tries source = some (x, rest)) : Reachable C x
  | mul {x y : C.Element} (hx : Reachable C x) (hy : Reachable C y) : Reachable C (C.mul x y)
  | exp {x : C.Element} (hx : Reachable C x) (s : Scalar C.order) : Reachable C (C.exp x s)

/-- What every operation of a suite keeps. -/
structure Invariant (C : Suite) (P : C.Element → Prop) : Prop where
  one : P C.one
  generator : P C.generator
  decode : ∀ bytes x, C.decode bytes = .ok x → P x
  hash : ∀ inputs tags x, C.hash inputs tags = .ok x → P x
  block : ∀ block x, C.elementSampler.ofBlock block = some x → P x
  mul : ∀ x y, P x → P y → P (C.mul x y)
  exp : ∀ x s, P x → P (C.exp x s)

/-- An invariant holds of all that is reachable. -/
theorem Invariant.of_reachable {P : C.Element → Prop} (hP : C.Invariant P) {x : C.Element}
    (h : C.Reachable x) : P x := by
  induction h with
  | one => exact hP.one
  | generator => exact hP.generator
  | generatorExp s => exact hP.exp _ s hP.generator
  | decode h => exact hP.decode _ _ h
  | hash h => exact hP.hash _ _ _ h
  | random h => exact Sampler.of_draw hP.block h
  | mul _ _ hx hy => exact hP.mul _ _ hx hy
  | exp _ s hx => exact hP.exp _ s hx

/-- The encoding of an element has the width of the suite. It is that of the
    identity, and refused as such, or it is read as an equal element. -/
def ReadsBack (C : Suite) (x : C.Element) : Prop :=
  (C.encode x).length = C.elementWidth ∧
    ((C.encode x = C.encode C.one ∧ C.decode (C.encode x) = .error .identity ∧
        C.isIdentity x = true) ∨
      ∃ y, C.decode (C.encode x) = .ok y ∧ C.equal y x = true)

end Suite

namespace QuadraticResidue

namespace Residue

/-- A square modulo the prime, in its least representative, and not zero. -/
def IsMember (x : Residue) : Prop :=
  1 ≤ x.value.toNat ∧ x.value.toNat < 2039 ∧ IsSquare (x.value.toNat : ZMod 2039)

variable {x : Residue}

theorem Sound.isMember (hx : x.Sound) : x.IsMember := by
  refine ⟨Nat.one_le_iff_ne_zero.2 fun h => ?_, hx.lt, hx.isSquare⟩
  exact hx.ne_zero (by rw [toZMod, h, Nat.cast_zero])

/-- Members are sound, by Euler's criterion. -/
theorem IsMember.sound (h : x.IsMember) : x.Sound := by
  obtain ⟨hpos, hlt, hsquare⟩ := h
  have hne : x.toZMod ≠ 0 := by
    intro hzero
    have hvalue := val_toZMod hlt
    rw [hzero, ZMod.val_zero] at hvalue
    omega
  exact ⟨hlt, (ZMod.euler_criterion 2039 hne).1 hsquare⟩

/-- The square of a residue that is not zero is sound. -/
theorem sound_mul_self (hx : x.toZMod ≠ 0) : (x.mul x).Sound := by
  refine ⟨mul_lt x x, ?_⟩
  rw [toZMod_mul, ← sq, ← pow_mul]
  exact ZMod.pow_card_sub_one_eq_one hx

theorem readsBack_of_sound (hx : x.Sound) : suite.ReadsBack x := by
  refine ⟨Bytes.length_ofNatBE _ _, ?_⟩
  by_cases h : x = one
  · subst h
    exact .inl ⟨rfl, decode_encode_one, rfl⟩
  · exact .inr ⟨x, decode_eq_ok.2 ⟨rfl, hx, h⟩, beq_self_eq_true x⟩

end Residue

/-- The residue of a digest is worked out without loss. -/
theorem toNat_ofDigest (digest : Bytes) :
    (ofDigest digest).value.toNat = Bytes.toNatBE (digest.take 8) % 2038 + 1 := by
  have hmod : Bytes.toNatBE (digest.take 8) % 2038 + 1 < 2039 :=
    Nat.succ_lt_succ (Nat.mod_lt _ (by decide))
  exact UInt32.toNat_ofNat_of_lt' (hmod.trans (by decide))

/-- A digest denotes a residue that is not zero. -/
theorem ofDigest_spec (digest : Bytes) :
    (ofDigest digest).value.toNat < 2039 ∧ (ofDigest digest).toZMod ≠ 0 := by
  have hvalue := toNat_ofDigest digest
  have hlt : (ofDigest digest).value.toNat < 2039 := by omega
  refine ⟨hlt, fun h => ?_⟩
  have hzero := Residue.val_toZMod hlt
  rw [h, ZMod.val_zero] at hzero
  omega

/-- What is hashed is sound, at whichever counter it is found. -/
theorem sound_of_hashFrom {hash : Bytes → Bytes} {inputs tags : List Bytes} {tries counter : ℕ}
    {x : Residue} (h : hashFrom hash inputs tags tries counter = .ok x) : x.Sound := by
  induction tries generalizing counter with
  | zero => cases h
  | succ tries ih =>
    rw [hashFrom] at h
    split at h
    · exact ih h
    · cases h
      obtain ⟨_, hne⟩ := ofDigest_spec (hash (preimage inputs tags counter))
      exact Residue.sound_mul_self hne

/-- The operations of the toy suite keep to the sound residues. -/
theorem sound_invariant : suite.Invariant Residue.Sound where
  one := Residue.Sound.one
  generator := Residue.Sound.generator
  decode _ _ h := (Residue.decode_eq_ok.1 h).2.1
  hash _ _ _ h := sound_of_hashFrom h
  block _ _ h := Sampler.of_ofBlock_map Residue.Sound.generator.exp h
  mul _ _ hx hy := hx.mul hy
  exp _ s hx := hx.exp s

end QuadraticResidue

namespace P256

open PrivateMatching.Modular

namespace Point

/-- The point at infinity, or a point whose coordinates satisfy the equation of
    the curve modulo the prime. -/
def IsMember : Point → Prop
  | infinity => True
  | affine x y =>
    (y.val : ℤ) ^ 2 ≡ (x.val : ℤ) ^ 3 - 3 * (x.val : ℤ) + (curveB.val : ℤ) [ZMOD fieldPrime]

variable {p : Point}

/-- Members are the points on the curve. -/
theorem isMember_iff : p.IsMember ↔ p.isOnCurve = true := by
  rcases p with _ | ⟨x, y⟩
  · exact iff_of_true trivial rfl
  · -- The congruence of integers is the equation modulo the prime.
    rw [IsMember, ← ZMod.intCast_eq_intCast_iff, isOnCurve_affine]
    push_cast
    rfl

theorem isMember_of_isOnCurve (h : p.isOnCurve = true) : p.IsMember := isMember_iff.2 h

theorem readsBack_of_isOnCurve (h : p.isOnCurve = true) : suite.ReadsBack p := by
  refine ⟨length_encode p, ?_⟩
  rcases p with _ | ⟨x, y⟩
  · exact .inl ⟨rfl, decode_encode_infinity, rfl⟩
  · exact .inr ⟨_, decode_encode h, beq_self_eq_true _⟩

end Point

/-- The operations of P-256 keep to the curve. -/
theorem isOnCurve_invariant : suite.Invariant fun p : Point => p.isOnCurve = true where
  one := rfl
  generator := Point.isOnCurve_generator
  decode _ _ h := Point.isOnCurve_of_decode h
  hash _ _ _ h := isOnCurve_of_hash h
  block _ _ h :=
    Sampler.of_ofBlock_map (P := fun p : Point => p.isOnCurve = true)
      (fun s : Scalar order => Point.isOnCurve_smul Point.isOnCurve_generator s.val) h
  mul _ _ hp hq := Point.isOnCurve_add hp hq
  exp _ s hp := Point.isOnCurve_smul hp s.val

end P256

/-- What is reachable is a member of the group, and read back from its
    encoding. -/
theorem Suite.reachable_mem_and_readsBack :
    (∀ x : QuadraticResidue.Residue, QuadraticResidue.suite.Reachable x →
      x.IsMember ∧ QuadraticResidue.suite.ReadsBack x) ∧
    (∀ p : P256.Point, P256.suite.Reachable p → p.IsMember ∧ P256.suite.ReadsBack p) := by
  constructor
  · intro x h
    have hx := QuadraticResidue.sound_invariant.of_reachable h
    exact ⟨hx.isMember, QuadraticResidue.Residue.readsBack_of_sound hx⟩
  · intro p h
    have hp := P256.isOnCurve_invariant.of_reachable h
    exact ⟨P256.Point.isMember_of_isOnCurve hp, P256.Point.readsBack_of_isOnCurve hp⟩

/-- The squares of the generators are reachable. -/
theorem Suite.square_mem_and_readsBack :
    (QuadraticResidue.Residue.generator.mul .generator).IsMember ∧
      (P256.Point.generator.add .generator).IsMember :=
  ⟨(reachable_mem_and_readsBack.1 _ (.mul .generator .generator)).1,
    (reachable_mem_and_readsBack.2 _ (.mul .generator .generator)).1⟩

end PrivateMatching
