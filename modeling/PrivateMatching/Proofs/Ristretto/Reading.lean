import PrivateMatching.Proofs.Bytes
import PrivateMatching.Proofs.Reading
import PrivateMatching.Proofs.Ristretto.Encoding
import PrivateMatching.Ristretto.Suite

/-!
# ristretto255 as a group

A point is sound if it stands for an even point of the Edwards curve, and is read
as four times that point (`reading`), which is the same for all points of its
class. Encodings are canonical (`reading_isCanonical`).
-/

namespace PrivateMatching

namespace Ristretto

open PrivateMatching.Modular

namespace Point

variable {p q : Point} {P Q : Edwards}

/-- The point stands for an even point of the Edwards curve. -/
def Sound (p : Point) : Prop := ∃ P, p.StandsFor P ∧ P ∈ Edwards.even

/-- The class of a point, told by four times the point. -/
noncomputable def quadruple (p : Point) : Multiplicative Edwards :=
  Multiplicative.ofAdd (4 • p.value)

theorem StandsFor.quadruple_eq (h : p.StandsFor P) :
    p.quadruple = Multiplicative.ofAdd (4 • P) := by
  rw [quadruple, h.value_eq]

theorem StandsFor.quadruple_eq_iff (hp : p.StandsFor P) (hq : q.StandsFor Q) :
    p.quadruple = q.quadruple ↔ 4 • P = 4 • Q := by
  rw [hp.quadruple_eq, hq.quadruple_eq, EmbeddingLike.apply_eq_iff_eq]

/-- The class of the identity has a coordinate that is zero. -/
theorem StandsFor.quadruple_eq_one_iff (h : p.StandsFor P) :
    p.quadruple = 1 ↔ P.x * P.y = 0 := by
  rw [h.quadruple_eq, ofAdd_eq_one, Edwards.four_nsmul_eq_zero_iff]

/-- Points are equal if they are in one class. -/
theorem StandsFor.equal_iff (hp : p.StandsFor P) (hq : q.StandsFor Q) :
    p.equal q = true ↔ p.quadruple = q.quadruple := by
  have hz : toZMod p.z * toZMod q.z ≠ 0 := mul_ne_zero hp.z_ne_zero hq.z_ne_zero
  have hcancel : ∀ a b c d : ZMod fieldPrime, a * toZMod p.z * (b * toZMod q.z) =
      c * toZMod p.z * (d * toZMod q.z) ↔ a * b = c * d := by
    intro a b c d
    rw [mul_mul_mul_comm, mul_mul_mul_comm c, mul_left_inj' hz]
  have hcross : p.x * q.y = p.y * q.x ↔ P.x * Q.y = P.y * Q.x := by
    rw [← toZMod_inj, toZMod_mul, toZMod_mul, hp.x_eq, hp.y_eq, hq.x_eq, hq.y_eq, hcancel]
  have hturn : p.y * q.y = p.x * q.x ↔ P.y * Q.y = P.x * Q.x := by
    rw [← toZMod_inj, toZMod_mul, toZMod_mul, hp.x_eq, hp.y_eq, hq.x_eq, hq.y_eq, hcancel]
  rw [hp.quadruple_eq_iff hq, Edwards.four_nsmul_eq_iff, equal, Bool.or_eq_true, beq_iff_eq,
    beq_iff_eq, hcross, hturn]

theorem StandsFor.isIdentity_iff (h : p.StandsFor P) : p.isIdentity = true ↔ p.quadruple = 1 := by
  rw [isIdentity, h.equal_iff .identity, StandsFor.identity.quadruple_eq, smul_zero, ofAdd_zero]

/-! ## Bytes -/

/-- A value is found if it is that of a residue that is not negative, and the residue
    is found. -/
theorem ofValue?_eq_some {n : ℕ} : ofValue? n = some p ↔
    ∃ s : Field, s.val = n ∧ Field.isNegative s = false ∧ ofCanonical? s = some p := by
  rw [ofValue?]
  constructor
  · intro h
    split at h
    · rename_i hlt
      split at h
      · cases h
      · rename_i hneg
        exact ⟨⟨n, hlt⟩, rfl, Bool.not_eq_true _ ▸ hneg, h⟩
    · cases h
  · rintro ⟨s, rfl, hneg, h⟩
    rw [dif_pos s.isLt, Fin.eta, hneg, if_neg Bool.false_ne_true, h]

/-- A string is read as a point if and only if it is the string of a residue that is
    not negative, which is found, and the point is not of the class of the
    identity. -/
theorem decode_eq_ok {bytes : Bytes} : decode bytes = .ok p ↔ p.isIdentity = false ∧
    ∃ s : Field, bytes = Bytes.ofNatLE width s.val ∧ Field.isNegative s = false ∧
      ofCanonical? s = some p := by
  constructor
  · intro h
    unfold decode at h
    split at h
    · cases h
    · rename_i hwidth
      split at h
      · cases h
      · rename_i q hq
        split at h
        · cases h
        · rename_i hidentity
          cases h
          obtain ⟨s, hs, hneg, hfound⟩ := ofValue?_eq_some.1 hq
          have hbytes := Bytes.ofNatLE_toNatLE bytes
          rw [not_not.1 hwidth] at hbytes
          exact ⟨Bool.not_eq_true _ ▸ hidentity, s, hs ▸ hbytes.symm, hneg, hfound⟩
  · rintro ⟨hidentity, s, rfl, hneg, hfound⟩
    have hlt : s.val < 256 ^ width := s.isLt.trans (by decide)
    have hvalue : Bytes.toNatLE (Bytes.ofNatLE width s.val) = s.val := by
      rw [Bytes.toNatLE_ofNatLE, Nat.mod_eq_of_lt hlt]
    have hlength : (Bytes.ofNatLE width s.val).length = width := Bytes.length_ofNatLE _ _
    rw [decode, if_neg (not_not.2 hlength), hvalue, ofValue?_eq_some.2 ⟨s, rfl, hneg, hfound⟩]
    simp only [hidentity, Bool.false_eq_true, if_false]

/-- A point that is read is sound, and the normal one of its class. -/
theorem normal_of_decode {bytes : Bytes} (h : decode bytes = .ok p) :
    ∃ P, p.StandsFor P ∧ P ∈ Edwards.even ∧ P.Normal ∧ ∃ s : Field,
      bytes = Bytes.ofNatLE width s.val ∧ Field.isNegative s = false ∧ P.HasCode s := by
  obtain ⟨hidentity, s, hbytes, hneg, hfound⟩ := decode_eq_ok.1 h
  obtain ⟨P, hp, heven, hcode, hx, hmul⟩ := of_ofCanonical? hfound
  have hne : P.x * P.y ≠ 0 := by
    rw [Ne, ← hp.quadruple_eq_one_iff, ← hp.isIdentity_iff, hidentity]
    exact Bool.false_ne_true
  exact ⟨P, hp, heven, ⟨hx, hmul, hne⟩, s, hbytes, hneg, hcode⟩

/-- Points of one class have one number. -/
theorem canonical_congr (hp : p.StandsFor P) (hq : q.StandsFor Q) (hP : P ∈ Edwards.even)
    (hQ : Q ∈ Edwards.even) (h : 4 • P = 4 • Q) : p.canonical = q.canonical := by
  by_cases hzero : P.x * P.y = 0
  · have hzero' : Q.x * Q.y = 0 := by
      rwa [← Edwards.four_nsmul_eq_zero_iff, ← h, Edwards.four_nsmul_eq_zero_iff]
    rw [canonical_of_mul_eq_zero hp hzero, canonical_of_mul_eq_zero hq hzero']
  · have hne : Q.x * Q.y ≠ 0 := by
      rwa [Ne, ← Edwards.four_nsmul_eq_zero_iff, ← h, Edwards.four_nsmul_eq_zero_iff]
    -- Both numbers are that of the one normal representative.
    obtain ⟨P', hP', hPP', hcode⟩ := canonical_spec hp hP hzero
    obtain ⟨Q', hQ', hQQ', hcode'⟩ := canonical_spec hq hQ hne
    obtain rfl := hP'.unique hQ' (by rw [hPP', hQQ', h])
    exact hcode.unique hcode' hP'.x_ne_zero p.isNegative_canonical q.isNegative_canonical

/-- Points of one class have one encoding. -/
theorem encode_congr (hp : p.StandsFor P) (hq : q.StandsFor Q) (hP : P ∈ Edwards.even)
    (hQ : Q ∈ Edwards.even) (h : p.quadruple = q.quadruple) : p.encode = q.encode := by
  rw [encode, canonical_congr hp hq hP hQ ((hp.quadruple_eq_iff hq).1 h), ← encode]

/-- A point that is read has the number that it was read from. -/
theorem encode_of_decode {bytes : Bytes} (h : decode bytes = .ok p) : p.encode = bytes := by
  obtain ⟨P, hp, heven, hP, s, rfl, hneg, hcode⟩ := normal_of_decode h
  obtain ⟨Q, hQ, hquadruple, hcode'⟩ := canonical_spec hp heven hP.mul_ne_zero
  obtain rfl := hQ.unique hP hquadruple
  rw [encode, hcode'.unique hcode hQ.x_ne_zero p.isNegative_canonical hneg]

/-- The number of a class other than that of the identity is read as a point of the
    class. -/
theorem decode_encode (hp : p.StandsFor P) (heven : P ∈ Edwards.even) (hne : P.x * P.y ≠ 0) :
    ∃ q, decode p.encode = .ok q ∧ q.quadruple = p.quadruple := by
  obtain ⟨Q, hQ, hquadruple, hcode⟩ := canonical_spec hp heven hne
  have hQeven := Edwards.mem_even_of_four_nsmul_eq hquadruple heven
  obtain ⟨q, hfound, hq⟩ := ofCanonical?_of_normal hQeven hQ hcode
  have hidentity : q.isIdentity = false := by
    rw [← Bool.not_eq_true, hq.isIdentity_iff, hq.quadruple_eq_one_iff]
    exact hQ.mul_ne_zero
  exact ⟨q, decode_eq_ok.2 ⟨hidentity, _, rfl, p.isNegative_canonical, hfound⟩,
    (hq.quadruple_eq_iff hp).2 hquadruple⟩

end Point

/-! ## The reading -/

/-- ristretto255, read in the group of the Edwards curve. -/
noncomputable def reading : suite.Reading (Multiplicative Edwards) where
  Sound := Point.Sound
  value := Point.quadruple
  value_pow_order := by
    rintro p ⟨P, hp, heven⟩
    rw [hp.quadruple_eq, ← ofAdd_nsmul]
    exact congrArg Multiplicative.ofAdd (Edwards.nsmul_eq_zero_of_even heven)
  sound_one := ⟨0, .identity, Edwards.even.zero_mem⟩
  value_one := by
    change Point.identity.quadruple = 1
    rw [Point.StandsFor.identity.quadruple_eq, smul_zero, ofAdd_zero]
  sound_generator := ⟨_, Edwards.standsFor_generator, Edwards.generator_mem_even⟩
  sound_mul := by
    rintro p q ⟨P, hp, hP⟩ ⟨Q, hq, hQ⟩
    exact ⟨P + Q, hp.add hq, Edwards.even.add_mem hP hQ⟩
  value_mul := by
    rintro p q ⟨P, hp, _⟩ ⟨Q, hq, _⟩
    change (p.add q).quadruple = _
    rw [(hp.add hq).quadruple_eq, hp.quadruple_eq, hq.quadruple_eq, nsmul_add, ofAdd_add]
  sound_exp := by
    rintro p ⟨P, hp, hP⟩ s
    exact ⟨s.val • P, hp.smul s.val, Edwards.even.nsmul_mem hP s.val⟩
  value_exp := by
    rintro p ⟨P, hp, _⟩ s
    change (p.smul s.val).quadruple = _
    rw [(hp.smul s.val).quadruple_eq, hp.quadruple_eq, ← ofAdd_nsmul, nsmul_left_comm]
  equal_iff := by
    rintro p q ⟨P, hp, _⟩ ⟨Q, hq, _⟩
    exact hp.equal_iff hq
  isIdentity_iff := by
    rintro p ⟨P, hp, _⟩
    exact hp.isIdentity_iff
  sound_of_decode h := by
    obtain ⟨P, hp, heven, _⟩ := Point.normal_of_decode h
    exact ⟨P, hp, heven⟩
  value_ne_one_of_decode h := by
    obtain ⟨P, hp, _, hP, _⟩ := Point.normal_of_decode h
    rw [Ne, hp.quadruple_eq_one_iff]
    exact hP.mul_ne_zero

/-- The suite reads points. Its function is told from that of points before a string
    is given, as the numerals of the field are not to be computed with. -/
theorem suite_decode : suite.decode = Point.decode := rfl

/-- The suite writes points. -/
theorem suite_encode : suite.encode = Point.encode := rfl

theorem reading_isCanonical : reading.IsCanonical where
  encode_congr := by
    rintro p q ⟨P, hp, hP⟩ ⟨Q, hq, hQ⟩ h
    exact Point.encode_congr hp hq hP hQ h
  encode_of_decode := Point.encode_of_decode
  decode_encode := by
    rintro p ⟨P, hp, hP⟩ hone
    rw [suite_decode]
    exact Point.decode_encode hp hP (hp.quadruple_eq_one_iff.not.1 hone)

end Ristretto

end PrivateMatching
