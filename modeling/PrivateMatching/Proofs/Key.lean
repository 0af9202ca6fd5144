import PrivateMatching.Layer
import PrivateMatching.Proofs.Bytes
import PrivateMatching.Proofs.Power

/-!
# The exponents of keys

A key acts by an exponent modulo the order of the group: its scalar, or the
inverse of it (`Key.factor`). If the order is prime, both are units, so a layer
of a key can always be made (`Layer.ofKey_eq`), and a scalar that is not zero is
the scalar of a key, which is loaded from its own encoding (`Key.load_toBytes`).
-/

namespace PrivateMatching

/-- A scalar is read from its encoding. -/
theorem ScalarFormat.decode_encode {F : ScalarFormat} (a : Scalar F.order) :
    F.decode (F.encode a) = .ok a := by
  have hvalue : Bytes.toNat F.byteOrder (F.encode a) = a.val :=
    Bytes.toNat_ofNat F.byteOrder (a.isLt.trans_le F.order_le)
  rw [decode, if_neg (not_not.2 (length_encode a))]
  simp only [hvalue, a.isLt, dif_pos]

namespace ScalarFormat

variable {F : ScalarFormat} {bytes : Bytes}

theorem decode_of_length_ne (h : bytes.length ≠ F.width) :
    F.decode bytes = .error (.wrongLength F.width bytes.length) := by
  rw [decode, if_pos h]

theorem decode_of_order_le (hwidth : bytes.length = F.width)
    (h : F.order ≤ Bytes.toNat F.byteOrder bytes) : F.decode bytes = .error .malformed := by
  rw [decode, if_neg (not_not.2 hwidth), dif_neg h.not_gt]

theorem decode_of_lt (hwidth : bytes.length = F.width)
    (h : Bytes.toNat F.byteOrder bytes < F.order) : F.decode bytes = .ok ⟨_, h⟩ := by
  rw [decode, if_neg (not_not.2 hwidth), dif_pos h]

end ScalarFormat

instance (F : ScalarFormat) : NeZero F.order := ⟨(Nat.zero_lt_one.trans F.one_lt_order).ne'⟩

namespace Key

variable {C : Suite}

/-! ## Which keys are refused -/

section Load

variable {secret : Bytes}

theorem load_of_length_ne (h : secret.length ≠ C.scalars.width) :
    load C secret = .error (.wrongLength C.scalars.width secret.length) := by
  rw [load, ScalarFormat.decode_of_length_ne h]

theorem load_of_order_le (hwidth : secret.length = C.scalars.width)
    (h : C.order ≤ Bytes.toNat C.scalars.byteOrder secret) :
    load C secret = .error .outOfRange := by
  rw [load, ScalarFormat.decode_of_order_le hwidth h]

theorem load_of_toNat_eq_zero (hwidth : secret.length = C.scalars.width)
    (h : Bytes.toNat C.scalars.byteOrder secret = 0) : load C secret = .error .zero := by
  have hlt : Bytes.toNat C.scalars.byteOrder secret < C.order :=
    h.trans_lt (Nat.zero_lt_one.trans C.scalars.one_lt_order)
  rw [load, ScalarFormat.decode_of_lt hwidth hlt]
  exact dif_pos h

end Load

/-! ## The exponents -/

/-- The inverse of a key is worked out. -/
theorem inverse_eq_ok (key : Key C) : key.inverse = .ok (Modular.inv key.scalar) := by
  rw [inverse, Scalar.inv?, if_neg key.ne_zero]

/-- The exponent by which a key acts, modulo the order. -/
def factor (key : Key C) : Direction → ZMod C.order
  | .forward => Modular.toZMod key.scalar
  | .inverse => (Modular.toZMod key.scalar)⁻¹

theorem toZMod_scalar_ne_zero (key : Key C) : Modular.toZMod key.scalar ≠ 0 := by
  intro h
  refine key.ne_zero ?_
  rw [← Modular.val_toZMod, h, ZMod.val_zero]

/-- A key is loaded from what it exports. -/
theorem load_toBytes (key : Key C) : load C key.toBytes = .ok key :=
  load_eq_ok.2 (ScalarFormat.decode_encode key.scalar)

/-- The key of an exponent that is not zero. -/
def ofZMod (e : ZMod C.order) (he : e ≠ 0) : Key C where
  scalar := ⟨e.val, ZMod.val_lt e⟩
  ne_zero := (ZMod.val_ne_zero e).2 he

@[simp] theorem factor_ofZMod (e : ZMod C.order) (he : e ≠ 0) :
    (ofZMod e he).factor .forward = e := by
  rw [factor, ofZMod, Modular.toZMod_mk, ZMod.natCast_zmod_val]

variable [Fact C.order.Prime]

theorem factor_ne_zero (key : Key C) (direction : Direction) : key.factor direction ≠ 0 := by
  rcases direction with _ | _
  · exact key.toZMod_scalar_ne_zero
  · exact inv_ne_zero key.toZMod_scalar_ne_zero

end Key

/-- A layer of a key can be made in both directions, with the exponent by which
    the key acts. -/
theorem Layer.ofKey_eq {C : Suite} [Fact C.order.Prime] [Fact (2 < C.order)] (key : Key C)
    (direction : Direction) :
    ∃ e : Scalar C.order, Modular.toZMod e = key.factor direction ∧
      Layer.ofKey key direction = .ok ⟨e, direction⟩ := by
  cases direction with
  | forward => exact ⟨key.scalar, rfl, rfl⟩
  | inverse =>
    refine ⟨Modular.inv key.scalar, Modular.toZMod_inv key.scalar, ?_⟩
    rw [Layer.ofKey, Layer.stripping, key.inverse_eq_ok]
    rfl

end PrivateMatching
