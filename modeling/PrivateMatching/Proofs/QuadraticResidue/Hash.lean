import PrivateMatching.Proofs.Reachable
import PrivateMatching.Proofs.Splitting

/-!
# What the toy suite hashes to

The hash tries counters, each of which gives a residue from 1 to 2038 (`candidate`). The square of
a residue is the identity if and only if the residue is one or minus one, as the modulus is prime
(`Residue.isIdentity_mul_self_iff`); all others are usable. So the hash is the square of the
candidate of the first usable counter (`hashFrom_eq_ok_iff`), and it fails if no counter is usable
(`hashFrom_eq_error_iff`).

A square other than the identity is a member of the group and is read back from its encoding, so
that no operation ever refuses it, whatever else is in the batch (`hashWith_exact`). Nothing is
assumed of the function that gives the digests.
-/

namespace PrivateMatching

namespace QuadraticResidue

/-! ## Usable residues -/

namespace Residue

variable {x : Residue}

/-- The residue is neither one nor minus one. -/
def IsUsable (x : Residue) : Prop := x.value.toNat ≠ 1 ∧ x.value.toNat ≠ 2038

instance (x : Residue) : Decidable x.IsUsable := inferInstanceAs (Decidable (_ ∧ _))

theorem toZMod_eq_natCast_iff {n : ℕ} (hx : x.value.toNat < 2039) (hn : n < 2039) :
    x.toZMod = n ↔ x.value.toNat = n := by
  rw [toZMod, ZMod.natCast_eq_natCast_iff', Nat.mod_eq_of_lt hx, Nat.mod_eq_of_lt hn]

/-- The square of a residue is the identity for one and minus one only. -/
theorem isIdentity_mul_self_iff (hlt : x.value.toNat < 2039) (hx : x.toZMod ≠ 0) :
    (x.mul x).isIdentity = true ↔ ¬x.IsUsable := by
  have hone : x.toZMod = 1 ↔ x.value.toNat = 1 := by
    rw [← toZMod_eq_natCast_iff hlt (by decide), Nat.cast_one]
  have hminus : x.toZMod = -1 ↔ x.value.toNat = 2038 := by
    rw [← toZMod_eq_natCast_iff hlt (by decide)]
    exact Iff.rfl
  rw [isIdentity_iff (sound_mul_self hx), toZMod_mul, mul_self_eq_one_iff, hone, hminus, IsUsable,
    ← not_or, not_not]

theorem toNat_value_inj {y : Residue} : x.value.toNat = y.value.toNat ↔ x = y := by
  cases x
  cases y
  rw [UInt32.toNat_inj, mk.injEq]

end Residue

/-! ## Counters -/

section Counters

variable {hash : Bytes → Bytes} {inputs tags : List Bytes}

/-- The residue that the hash gives to a counter. -/
def candidate (hash : Bytes → Bytes) (inputs tags : List Bytes) (counter : ℕ) : Residue :=
  ofDigest (hash (preimage inputs tags counter))

theorem isIdentity_candidate_mul_self_iff {counter : ℕ} :
    ((candidate hash inputs tags counter).mul (candidate hash inputs tags counter)).isIdentity =
      true ↔ ¬(candidate hash inputs tags counter).IsUsable := by
  obtain ⟨hlt, hne⟩ := ofDigest_spec (hash (preimage inputs tags counter))
  exact Residue.isIdentity_mul_self_iff hlt hne

variable {tries counter : ℕ}

theorem hashFrom_of_isUsable (h : (candidate hash inputs tags counter).IsUsable) :
    hashFrom hash inputs tags (tries + 1) counter =
      .ok ((candidate hash inputs tags counter).mul (candidate hash inputs tags counter)) := by
  rw [hashFrom]
  exact if_neg (isIdentity_candidate_mul_self_iff.not_left.2 h)

theorem hashFrom_of_not_isUsable (h : ¬(candidate hash inputs tags counter).IsUsable) :
    hashFrom hash inputs tags (tries + 1) counter =
      hashFrom hash inputs tags tries (counter + 1) := by
  rw [hashFrom]
  exact if_pos (isIdentity_candidate_mul_self_iff.2 h)

/-- The hash is the square of the candidate of the first usable counter. -/
theorem hashFrom_eq_ok_iff {y : Residue} : hashFrom hash inputs tags tries counter = .ok y ↔
    ∃ i < tries, (candidate hash inputs tags (counter + i)).IsUsable ∧
      (∀ j < i, ¬(candidate hash inputs tags (counter + j)).IsUsable) ∧
      (candidate hash inputs tags (counter + i)).mul
        (candidate hash inputs tags (counter + i)) = y := by
  induction tries generalizing counter with
  | zero => exact iff_of_false (by rintro ⟨⟩) fun ⟨_, hi, _⟩ => Nat.not_lt_zero _ hi
  | succ tries ih =>
    by_cases husable : (candidate hash inputs tags counter).IsUsable
    · rw [hashFrom_of_isUsable husable, Except.ok.injEq]
      constructor
      · exact fun hy => ⟨0, Nat.succ_pos _, husable, fun _ hj => absurd hj (Nat.not_lt_zero _), hy⟩
      · rintro ⟨i, _, _, hleast, hy⟩
        -- A usable counter is not passed over.
        obtain rfl : i = 0 := Nat.eq_zero_of_not_pos fun hi => hleast 0 hi husable
        exact hy
    · have hshift : ∀ i, counter + 1 + i = counter + (i + 1) := fun i => by omega
      rw [hashFrom_of_not_isUsable husable, ih]
      simp only [hshift]
      constructor
      · rintro ⟨i, hi, hfound, hleast, hy⟩
        refine ⟨i + 1, Nat.succ_lt_succ hi, hfound, fun j hj => ?_, hy⟩
        cases j with
        | zero => exact husable
        | succ j => exact hleast j (Nat.lt_of_succ_lt_succ hj)
      · rintro ⟨i, hi, hfound, hleast, hy⟩
        cases i with
        | zero => exact absurd hfound husable
        | succ i =>
          exact ⟨i, Nat.lt_of_succ_lt_succ hi, hfound,
            fun j hj => hleast (j + 1) (Nat.succ_lt_succ hj), hy⟩

/-- The hash fails if no counter is usable. -/
theorem hashFrom_eq_error_iff {cause : HashFault} :
    hashFrom hash inputs tags tries counter = .error cause ↔ cause = .countersExhausted ∧
      ∀ i < tries, ¬(candidate hash inputs tags (counter + i)).IsUsable := by
  induction tries generalizing counter with
  | zero =>
    rw [hashFrom, Except.error.injEq, eq_comm]
    exact (and_iff_left fun _ hi => absurd hi (Nat.not_lt_zero _)).symm
  | succ tries ih =>
    by_cases husable : (candidate hash inputs tags counter).IsUsable
    · rw [hashFrom_of_isUsable husable]
      exact iff_of_false (by rintro ⟨⟩) fun h => h.2 0 (Nat.succ_pos _) husable
    · have hshift : ∀ i, counter + 1 + i = counter + (i + 1) := fun i => by omega
      rw [hashFrom_of_not_isUsable husable, ih, Nat.forall_lt_succ_left']
      simp only [hshift, Nat.add_zero, husable, not_false_eq_true, true_and]

/-- What is hashed is not the identity. -/
theorem ne_one_of_hashFrom {y : Residue} (h : hashFrom hash inputs tags tries counter = .ok y) :
    y ≠ .one := by
  obtain ⟨i, _, husable, _, rfl⟩ := hashFrom_eq_ok_iff.1 h
  intro hone
  refine isIdentity_candidate_mul_self_iff.1 ?_ husable
  rw [hone]
  rfl

/-- What is hashed is read back from its encoding. -/
theorem decode_encode_of_hashFrom {y : Residue}
    (h : hashFrom hash inputs tags tries counter = .ok y) : Residue.decode y.encode = .ok y :=
  Residue.decode_eq_ok.2 ⟨rfl, sound_of_hashFrom h, ne_one_of_hashFrom h⟩

end Counters

/-! ## The hash -/

section Hash

variable {hash : Bytes → Bytes} {inputs tags : List Bytes}

theorem toNat_candidate (counter : ℕ) : (candidate hash inputs tags counter).value.toNat =
    Bytes.toNatBE ((hash (Framing.stream inputs tags ++ Bytes.ofNatBE 4 counter)).take 8) % 2038 +
      1 :=
  toNat_ofDigest _

theorem hashWith_eq_ok_iff {y : Residue} : hashWith hash inputs tags = .ok y ↔
    ∃ c < 64, (candidate hash inputs tags c).IsUsable ∧
      (∀ i < c, ¬(candidate hash inputs tags i).IsUsable) ∧
      y.value.toNat = (candidate hash inputs tags c).value.toNat ^ 2 % 2039 := by
  have hsquare : ∀ c, y.value.toNat = (candidate hash inputs tags c).value.toNat ^ 2 % 2039 ↔
      (candidate hash inputs tags c).mul (candidate hash inputs tags c) = y := by
    intro c
    rw [sq, ← Residue.toNat_mul, Residue.toNat_value_inj]
    exact eq_comm
  rw [hashWith, hashFrom_eq_ok_iff]
  simp only [Nat.zero_add, hsquare]
  rfl

theorem hashWith_eq_error_iff {cause : HashFault} : hashWith hash inputs tags = .error cause ↔
    cause = .countersExhausted ∧ ∀ c < 64, ¬(candidate hash inputs tags c).IsUsable := by
  rw [hashWith, hashFrom_eq_error_iff]
  simp only [Nat.zero_add]
  rfl

end Hash

/-- The hash finds the first usable counter, and what it finds is always accepted, whatever
    function gives the digests. A candidate is a residue from 1 to 2038. The hash is the square of
    the candidate of the least usable counter below 64, and fails if and only if there is none.
    What is hashed is a member of the group other than the identity, and is read back from its
    encoding; so in any batch and with any accepted key, no operation refuses it, nor does it
    matter to whether the rest is accepted. -/
theorem hashWith_exact (hash : Bytes → Bytes) (inputs tags : List Bytes) :
    (∀ c, (candidate hash inputs tags c).value.toNat = Bytes.toNatBE
        ((hash (Framing.stream inputs tags ++ Bytes.ofNatBE 4 c)).take 8) % 2038 + 1 ∧
      1 ≤ (candidate hash inputs tags c).value.toNat ∧
      (candidate hash inputs tags c).value.toNat ≤ 2038) ∧
    (∀ y, hashWith hash inputs tags = .ok y ↔
      ∃ c < 64, (candidate hash inputs tags c).IsUsable ∧
        (∀ i < c, ¬(candidate hash inputs tags i).IsUsable) ∧
        y.value.toNat = (candidate hash inputs tags c).value.toNat ^ 2 % 2039) ∧
    (∀ cause, hashWith hash inputs tags = .error cause ↔ cause = .countersExhausted ∧
      ∀ c < 64, ¬(candidate hash inputs tags c).IsUsable) ∧
    ∀ y, hashWith hash inputs tags = .ok y →
      y.IsMember ∧ y ≠ .one ∧ Residue.decode y.encode = .ok y ∧
      ∀ (op : Operation) (secret : Bytes) (key : Key Context.toy.suite),
        Key.load Context.toy.suite secret = .ok key → ∀ front rest : List Bytes,
          (∀ reason, Operation.run Context.toy.suite
            (⟨secret, front ++ y.encode :: rest⟩ : Request op) ≠
              .error (.invalidEncoding front.length reason)) ∧
          ((∃ response, Operation.run Context.toy.suite
              (⟨secret, front ++ y.encode :: rest⟩ : Request op) = .ok response) ↔
            ∃ response, Operation.run Context.toy.suite
              (⟨secret, front ++ rest⟩ : Request op) = .ok response) := by
  refine ⟨fun c => ⟨toNat_candidate c, ?_, Nat.le_of_lt_succ (ofDigest_spec _).1⟩,
    fun _ => hashWith_eq_ok_iff, fun _ => hashWith_eq_error_iff, fun y hy => ?_⟩
  · rw [toNat_candidate]
    exact Nat.succ_pos _
  · have hdecode := decode_encode_of_hashFrom hy
    exact ⟨(sound_of_hashFrom hy).isMember, ne_one_of_hashFrom hy, hdecode,
      fun _ _ _ hkey => Operation.accepts_of_decode Context.toy.isLawful hkey hdecode⟩

/-- A function whose digest denotes one for the counter zero, and two for the others: the second
    counter is taken, and the square of two is accepted where a layer is stripped. -/
theorem hashWith_exact_retry :
    hashWith (fun message => if message.getLast? = some 0 then List.replicate 32 0 else
        List.replicate 7 0 ++ 1 :: List.replicate 24 0) [[97]] [] = .ok ⟨4⟩ ∧
      ∃ response, Operation.run Context.toy.suite
        (⟨[0, 3], [[0, 4]]⟩ : Request .decrypt) = .ok response := by
  obtain ⟨_, hok, _, haccepted⟩ := hashWith_exact (fun message =>
    if message.getLast? = some 0 then List.replicate 32 0 else
      List.replicate 7 0 ++ 1 :: List.replicate 24 0) [[97]] []
  have hfound := (hok ⟨4⟩).2 ⟨1, by decide, by decide, by decide, by decide⟩
  have hkey : Key.load Context.toy.suite [0, 3] = .ok ⟨(3 : Scalar 1019), by decide⟩ := rfl
  obtain ⟨_, _, _, hbatches⟩ := haccepted _ hfound
  exact ⟨hfound, ((hbatches .decrypt _ _ hkey [] []).2).2 ⟨⟨[]⟩, rfl⟩⟩

/-- The suite takes its digests from SHA3-256. -/
example : suite.hash = hashWith Sha3.digest256 := rfl

end QuadraticResidue

end PrivateMatching
