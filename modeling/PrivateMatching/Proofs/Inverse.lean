import PrivateMatching.Proofs.Context

/-!
# Inverses of keys

The inverse of a key is a key again (`Key.inverted`), and its inverse is the key. Stripping
the layer of a key is adding that of the inverse, whatever the elements are and whatever
raising them to an exponent does: both give the same batch or refuse the same element
(`Batch.apply_inverse_cases`). Only a fault of the arithmetic, which names the direction,
could tell them apart.

What this takes is that the order is prime, so it holds with the scalars of any context
(`Context.inverse_exact`).
-/

namespace PrivateMatching

variable {C : Suite}

/-! ## The inverse as a key -/

namespace Key

variable [Fact C.order.Prime]

/-- The key whose layer undoes that of a key. -/
def inverted (key : Key C) : Key C :=
  ofZMod (key.factor .inverse) (key.factor_ne_zero .inverse)

theorem toZMod_inverted (key : Key C) :
    Modular.toZMod key.inverted.scalar = (Modular.toZMod key.scalar)⁻¹ :=
  factor_ofZMod _ (key.factor_ne_zero .inverse)

/-- The inverse of the inverse is the key. -/
theorem inverted_inverted_scalar (key : Key C) : key.inverted.inverted.scalar = key.scalar := by
  refine Modular.toZMod_injective ?_
  rw [toZMod_inverted, toZMod_inverted, inv_inv]

/-- A key times its inverse is one, modulo the order. -/
theorem scalar_mul_inverted (key : Key C) :
    key.scalar.val * key.inverted.scalar.val % C.order = 1 := by
  have hmul : ((key.scalar.val * key.inverted.scalar.val : ℕ) : ZMod C.order) = (1 : ℕ) := by
    rw [Nat.cast_mul, Nat.cast_one]
    change Modular.toZMod key.scalar * Modular.toZMod key.inverted.scalar = 1
    rw [toZMod_inverted, mul_inv_cancel₀ key.toZMod_scalar_ne_zero]
  rw [(ZMod.natCast_eq_natCast_iff' _ _ _).1 hmul, Nat.mod_eq_of_lt C.scalars.one_lt_order]

variable [Fact (2 < C.order)]

/-- The inverse that is worked out is the scalar of the inverse key. -/
theorem inverse_eq_inverted (key : Key C) : key.inverse = .ok key.inverted.scalar := by
  rw [inverse_eq_ok, Except.ok.injEq]
  refine Modular.toZMod_injective ?_
  rw [Modular.toZMod_inv, toZMod_inverted]

end Key

/-! ## Stripping as adding -/

/-- The direction of a layer does not matter but in a fault. -/
theorem Layer.apply_cases (e : Scalar C.order) (d d' : Direction) (x : C.Element) :
    (∃ y, apply ⟨e, d⟩ x = .ok y ∧ apply ⟨e, d'⟩ x = .ok y) ∨
      ∃ fault fault', apply ⟨e, d⟩ x = .error fault ∧ apply ⟨e, d'⟩ x = .error fault' := by
  by_cases h : C.isIdentity (C.exp x e) = true
  · exact .inr ⟨_, _, if_pos h, if_pos h⟩
  · exact .inl ⟨_, if_neg h, if_neg h⟩

namespace Batch

theorem transform_cases (e : Scalar C.order) (d d' : Direction) (xs : List C.Element) :
    (∃ ys, transform ⟨e, d⟩ xs = .ok ys ∧ transform ⟨e, d'⟩ xs = .ok ys) ∨
      ∃ fault fault', transform ⟨e, d⟩ xs = .error fault ∧
        transform ⟨e, d'⟩ xs = .error fault' := by
  induction xs with
  | nil => exact .inl ⟨[], rfl, rfl⟩
  | cons x xs ih =>
    rw [transform, transform]
    rcases Layer.apply_cases e d d' x with ⟨y, hy, hy'⟩ | ⟨fault, fault', hy, hy'⟩
    · rcases ih with ⟨ys, hys, hys'⟩ | ⟨fault, fault', hys, hys'⟩
      · exact .inl ⟨C.encode y :: ys, by simp only [hy, hys], by simp only [hy', hys']⟩
      · exact .inr ⟨fault, fault', by simp only [hy, hys], by simp only [hy', hys']⟩
    · exact .inr ⟨fault, fault', by simp only [hy], by simp only [hy']⟩

variable [Fact C.order.Prime] [Fact (2 < C.order)]

/-- Stripping the layer of a key and adding that of its inverse come to the same, or both to
    a fault of the arithmetic. -/
theorem apply_inverse_cases (key : Key C) (elements : List Bytes) :
    apply key .inverse elements = apply key.inverted .forward elements ∨
      ∃ fault fault', apply key .inverse elements = .error (.arithmetic fault) ∧
        apply key.inverted .forward elements = .error (.arithmetic fault') := by
  have hinverse : Layer.ofKey key .inverse = .ok ⟨key.inverted.scalar, .inverse⟩ := by
    rw [Layer.ofKey, Layer.stripping, key.inverse_eq_inverted]
    rfl
  have hforward : Layer.ofKey key.inverted .forward = .ok ⟨key.inverted.scalar, .forward⟩ := rfl
  rw [apply, apply]
  cases decode C elements with
  | error failure => exact .inl rfl
  | ok xs =>
    simp only [hinverse, hforward]
    rcases transform_cases key.inverted.scalar .inverse .forward xs with
      ⟨ys, hys, hys'⟩ | ⟨fault, fault', hys, hys'⟩
    · exact .inl (by rw [hys, hys'])
    · exact .inr ⟨fault, fault', by rw [hys], by rw [hys']⟩

end Batch

/-! ## Operations -/

namespace Operation

variable [Fact C.order.Prime] [Fact (2 < C.order)]

/-- Stripping the layer of a key gives the batches that adding the layer of the inverse
    gives, and refuses the same elements. -/
theorem run_decrypt_iff {secret : Bytes} {key : Key C} (h : Key.load C secret = .ok key)
    (elements : List Bytes) :
    (∀ output, run C (⟨secret, elements⟩ : Request .decrypt) = .ok ⟨output⟩ ↔
      run C (⟨key.inverted.toBytes, elements⟩ : Request .apply) = .ok ⟨output⟩) ∧
    ∀ position reason,
      run C (⟨secret, elements⟩ : Request .decrypt) =
        .error (.invalidEncoding position reason) ↔
      run C (⟨key.inverted.toBytes, elements⟩ : Request .apply) =
        .error (.invalidEncoding position reason) := by
  have hinverted := Key.load_toBytes key.inverted
  refine ⟨fun output => ?_, fun position reason => ?_⟩
  · rw [run_eq_ok_iff h, run_eq_ok_iff hinverted, direction, direction]
    rcases Batch.apply_inverse_cases key elements with heq | ⟨_, _, hstrip, hadd⟩
    · rw [heq]
    · simp [hstrip, hadd]
  · rw [run_eq_error_iff h, run_eq_error_iff hinverted, direction, direction]
    rcases Batch.apply_inverse_cases key elements with heq | ⟨_, _, hstrip, hadd⟩
    · rw [heq]
    · simp [hstrip, hadd]

end Operation

/-- Inverting a key is total and exact, with the scalars of any context and whatever the
    elements are: the inverse is worked out, is the inverse modulo the order, is accepted as
    a key, and has the key as its inverse. Stripping the layer of the key is adding that of
    the inverse, batch by batch and refusal by refusal. -/
theorem Context.inverse_exact (c : Context) {C : Suite} (hC : C.scalars = c.suite.scalars)
    {secret : Bytes} {key : Key C} (h : Key.load C secret = .ok key) :
    ∃ (s t : Scalar C.order) (inverse : Key C), key.inverse = .ok s ∧
      (1 ≤ s.val ∧ s.val ≤ C.order - 1) ∧ key.scalar.val * s.val % C.order = 1 ∧
      Key.load C (C.scalars.encode s) = .ok inverse ∧ inverse.inverse = .ok t ∧
      C.scalars.encode t = secret ∧
      ∀ elements : List Bytes,
        (∀ output, Operation.run C (⟨secret, elements⟩ : Request .decrypt) = .ok ⟨output⟩ ↔
          Operation.run C (⟨C.scalars.encode s, elements⟩ : Request .apply) = .ok ⟨output⟩) ∧
        ∀ position reason,
          Operation.run C (⟨secret, elements⟩ : Request .decrypt) =
            .error (.invalidEncoding position reason) ↔
          Operation.run C (⟨C.scalars.encode s, elements⟩ : Request .apply) =
            .error (.invalidEncoding position reason) := by
  have : Fact C.order.Prime := ⟨by rw [Suite.order, hC]; exact c.isLawful.prime_order⟩
  have : Fact (2 < C.order) := ⟨by rw [Suite.order, hC]; exact c.isLawful.two_lt_order⟩
  have hpos : 1 ≤ key.inverted.scalar.val := Nat.one_le_iff_ne_zero.2 key.inverted.ne_zero
  have hle : key.inverted.scalar.val ≤ C.order - 1 :=
    Nat.le_sub_one_of_lt key.inverted.scalar.isLt
  refine ⟨key.inverted.scalar, key.inverted.inverted.scalar, key.inverted,
    key.inverse_eq_inverted, ⟨hpos, hle⟩, key.scalar_mul_inverted,
    Key.load_toBytes key.inverted, key.inverted.inverse_eq_inverted, ?_,
    Operation.run_decrypt_iff h⟩
  rw [key.inverted_inverted_scalar]
  exact Key.toBytes_of_load h

/-- The key three, whose inverse is 340: with either of them, a batch is refused for its second
    element, which is the identity. -/
theorem Context.inverse_exact_three :
    3 * 340 % 1019 = 1 ∧
      Operation.run toy.suite (⟨[1, 84], [[0, 4], [0, 1]]⟩ : Request .apply) =
        .error (.invalidEncoding 1 .identity) ∧
      ∀ output, Operation.run toy.suite (⟨[0, 3], [[0, 4], [0, 9]]⟩ : Request .decrypt) =
          .ok ⟨output⟩ ↔
        Operation.run toy.suite (⟨[1, 84], [[0, 4], [0, 9]]⟩ : Request .apply) =
          .ok ⟨output⟩ := by
  have h : Key.load toy.suite [0, 3] = .ok ⟨(3 : Scalar 1019), by decide⟩ := rfl
  have hrefused : Operation.run toy.suite (⟨[0, 3], [[0, 4], [0, 1]]⟩ : Request .decrypt) =
      .error (.invalidEncoding 1 .identity) := rfl
  obtain ⟨s, _, _, hs, _, hmul, _, _, _, hruns⟩ := inverse_exact toy rfl h
  obtain rfl : (340 : Scalar 1019) = s := Except.ok.inj hs
  exact ⟨hmul, ((hruns _).2 _ _).1 hrefused, (hruns _).1⟩

end PrivateMatching
