import Mathlib.Data.Set.Function
import PrivateMatching.Context
import PrivateMatching.Proofs.Key

/-!
# Which strings are keys

Loading a string as a key has four outcomes (`Key.load_cases`): its length is not the width
of a scalar, or its value is not below the order, or it is zero, or the string is the key with
that value. The outcomes exclude each other, so each is told by its condition. A key is loaded
from the string it exports and from no other (`Key.load_eq_ok_iff_toBytes`), so keys and
accepted strings are in bijection (`Key.bijOn_toBytes`).
-/

namespace PrivateMatching

namespace Key

variable {C : Suite} {secret : Bytes} {key : Key C}

/-! ## The outcomes -/

theorem load_of_pos_of_lt (hwidth : secret.length = C.scalars.width)
    (hpos : 0 < Bytes.toNat C.scalars.byteOrder secret)
    (hlt : Bytes.toNat C.scalars.byteOrder secret < C.order) :
    load C secret = .ok ⟨⟨_, hlt⟩, hpos.ne'⟩ :=
  load_eq_ok.2 (ScalarFormat.decode_of_lt hwidth hlt)

/-- What loading a string gives. -/
theorem load_cases (C : Suite) (secret : Bytes) :
    (secret.length ≠ C.scalars.width ∧
      load C secret = .error (.wrongLength C.scalars.width secret.length)) ∨
    (secret.length = C.scalars.width ∧ C.order ≤ Bytes.toNat C.scalars.byteOrder secret ∧
      load C secret = .error .outOfRange) ∨
    (secret.length = C.scalars.width ∧ Bytes.toNat C.scalars.byteOrder secret = 0 ∧
      load C secret = .error .zero) ∨
    (secret.length = C.scalars.width ∧ 0 < Bytes.toNat C.scalars.byteOrder secret ∧
      Bytes.toNat C.scalars.byteOrder secret < C.order ∧ ∃ key, load C secret = .ok key) := by
  by_cases hwidth : secret.length = C.scalars.width
  · rcases le_or_gt C.order (Bytes.toNat C.scalars.byteOrder secret) with hle | hlt
    · exact .inr (.inl ⟨hwidth, hle, load_of_order_le hwidth hle⟩)
    · rcases Nat.eq_zero_or_pos (Bytes.toNat C.scalars.byteOrder secret) with hzero | hpos
      · exact .inr (.inr (.inl ⟨hwidth, hzero, load_of_toNat_eq_zero hwidth hzero⟩))
      · exact .inr (.inr (.inr ⟨hwidth, hpos, hlt, _, load_of_pos_of_lt hwidth hpos hlt⟩))
  · exact .inl ⟨hwidth, load_of_length_ne hwidth⟩

theorem load_eq_wrongLength_iff {expected actual : ℕ} :
    load C secret = .error (.wrongLength expected actual) ↔
      secret.length ≠ C.scalars.width ∧ expected = C.scalars.width ∧ actual = secret.length := by
  rcases load_cases C secret with ⟨h, hload⟩ | ⟨h, _, hload⟩ | ⟨h, _, hload⟩ |
    ⟨h, _, _, key, hload⟩
  · simp only [hload, Except.error.injEq, KeyFault.wrongLength.injEq, ne_eq, h,
      not_false_eq_true, true_and, eq_comm]
  all_goals simp [hload, h]

theorem load_eq_outOfRange_iff : load C secret = .error .outOfRange ↔
    secret.length = C.scalars.width ∧ C.order ≤ Bytes.toNat C.scalars.byteOrder secret := by
  have horder : 0 < C.order := Nat.zero_lt_one.trans C.scalars.one_lt_order
  rcases load_cases C secret with ⟨h, hload⟩ | ⟨h, hle, hload⟩ | ⟨h, hzero, hload⟩ |
    ⟨h, _, hlt, key, hload⟩
  · simp [hload, h]
  · simp only [hload, h, hle, and_self]
  · simp [hload, hzero, horder.ne']
  · simp [hload, hlt]

theorem load_eq_zero_iff : load C secret = .error .zero ↔
    secret.length = C.scalars.width ∧ Bytes.toNat C.scalars.byteOrder secret = 0 := by
  have horder : 0 < C.order := Nat.zero_lt_one.trans C.scalars.one_lt_order
  rcases load_cases C secret with ⟨h, hload⟩ | ⟨h, hle, hload⟩ | ⟨h, hzero, hload⟩ |
    ⟨h, hpos, _, key, hload⟩
  · simp [hload, h]
  · simp [hload, (horder.trans_le hle).ne']
  · simp only [hload, h, hzero, and_self]
  · simp [hload, hpos.ne']

theorem exists_load_eq_ok_iff : (∃ key, load C secret = .ok key) ↔
    secret.length = C.scalars.width ∧ 0 < Bytes.toNat C.scalars.byteOrder secret ∧
      Bytes.toNat C.scalars.byteOrder secret < C.order := by
  constructor
  · intro hkey
    rcases load_cases C secret with ⟨_, hload⟩ | ⟨_, _, hload⟩ | ⟨_, _, hload⟩ | ⟨h, hpos, hlt, _⟩
    · simp [hload] at hkey
    · simp [hload] at hkey
    · simp [hload] at hkey
    · exact ⟨h, hpos, hlt⟩
  · rintro ⟨h, hpos, hlt⟩
    exact ⟨_, load_of_pos_of_lt h hpos hlt⟩

/-! ## Keys and their strings -/

@[simp] theorem length_toBytes (key : Key C) : key.toBytes.length = C.scalars.width :=
  ScalarFormat.length_encode key.scalar

/-- A key is loaded from the string that it exports, and from no other. -/
theorem load_eq_ok_iff_toBytes : load C secret = .ok key ↔ key.toBytes = secret := by
  constructor
  · exact toBytes_of_load
  · rintro rfl
    exact load_toBytes key

/-- The scalar of a key is the value of the string that it exports. -/
theorem toNat_toBytes (key : Key C) :
    Bytes.toNat C.scalars.byteOrder key.toBytes = key.scalar.val :=
  Bytes.toNat_ofNat C.scalars.byteOrder (key.scalar.isLt.trans_le C.scalars.order_le)

/-- Exporting is a bijection between the keys and the accepted strings. -/
theorem bijOn_toBytes :
    Set.BijOn (toBytes : Key C → Bytes) Set.univ {secret | ∃ key, load C secret = .ok key} := by
  refine ⟨fun key _ => ⟨key, load_toBytes key⟩, fun a _ b _ h => ?_, ?_⟩
  · exact Except.ok.inj ((load_toBytes a).symm.trans (load_eq_ok_iff_toBytes.2 h.symm))
  · rintro secret ⟨key, hload⟩
    exact ⟨key, trivial, toBytes_of_load hload⟩

/-- A scalar is that of a key if and only if it is not zero, and the key is loaded from what
    it exports. -/
theorem exists_ofScalar_iff (s : Scalar C.order) :
    (∃ key : Key C, ofScalar s = .ok key ∧ key.scalar = s ∧
      key.toBytes.length = C.scalars.width ∧ load C key.toBytes = .ok key) ↔ s.val ≠ 0 := by
  constructor
  · rintro ⟨key, _, rfl, _⟩
    exact key.ne_zero
  · intro h
    exact ⟨⟨s, h⟩, ofScalar_eq_ok.2 rfl, rfl, length_toBytes _, load_toBytes _⟩

end Key

namespace Context

/-- The value of a byte string in the byte order of a context. -/
def value : Context → Bytes → ℕ
  | .p256, bytes | .toy, bytes => Nat.ofDigits 256 (bytes.map UInt8.toNat).reverse
  | .ristretto255, bytes => Nat.ofDigits 256 (bytes.map UInt8.toNat)

theorem toNat_byteOrder (c : Context) (bytes : Bytes) :
    Bytes.toNat c.suite.scalars.byteOrder bytes = c.value bytes := by
  cases c with
  | p256 => exact Bytes.toNatBE_eq_ofDigits bytes
  | ristretto255 => exact Bytes.toNatLE_eq_ofDigits bytes
  | toy => exact Bytes.toNatBE_eq_ofDigits bytes

/-- Loading accepts exactly the strings of the width of a scalar whose value is between zero
    and the order, and says of the others what is wrong, in the order of length, range and
    zero. It is canonical: keys and accepted strings are in bijection. -/
theorem load_exact (c : Context) :
    (∀ secret : Bytes,
      (∀ expected actual, Key.load c.suite secret = .error (.wrongLength expected actual) ↔
        secret.length ≠ c.suite.scalars.width ∧ expected = c.suite.scalars.width ∧
          actual = secret.length) ∧
      (Key.load c.suite secret = .error .outOfRange ↔
        secret.length = c.suite.scalars.width ∧ c.suite.order ≤ c.value secret) ∧
      (Key.load c.suite secret = .error .zero ↔
        secret.length = c.suite.scalars.width ∧ c.value secret = 0) ∧
      ((∃ key, Key.load c.suite secret = .ok key) ↔
        secret.length = c.suite.scalars.width ∧ 0 < c.value secret ∧
          c.value secret < c.suite.order) ∧
      ∀ key, Key.load c.suite secret = .ok key ↔
        key.toBytes = secret ∧ key.scalar.val = c.value secret) ∧
    (∀ s : Scalar c.suite.order,
      (∃ key : Key c.suite, Key.ofScalar s = .ok key ∧ key.scalar = s ∧
        key.toBytes.length = c.suite.scalars.width ∧
        Key.load c.suite key.toBytes = .ok key) ↔ s.val ≠ 0) ∧
    Set.BijOn (Key.toBytes : Key c.suite → Bytes) Set.univ
      {secret | ∃ key, Key.load c.suite secret = .ok key} := by
  refine ⟨fun secret => ⟨fun _ _ => Key.load_eq_wrongLength_iff, ?_, ?_, ?_, fun key => ?_⟩,
    Key.exists_ofScalar_iff, Key.bijOn_toBytes⟩
  · rw [← c.toNat_byteOrder, Key.load_eq_outOfRange_iff]
  · rw [← c.toNat_byteOrder, Key.load_eq_zero_iff]
  · rw [← c.toNat_byteOrder, Key.exists_load_eq_ok_iff]
  · rw [← c.toNat_byteOrder, Key.load_eq_ok_iff_toBytes, iff_self_and]
    rintro rfl
    exact key.toNat_toBytes.symm

end Context

end PrivateMatching
