import PrivateMatching.Proofs.Ristretto.Reading

/-!
# The decoder of ristretto255 is canonical

Reading a string of the right width finds a point or refuses the string
(`Point.decode_cases`). The identity is found at the number zero only
(`Point.isIdentity_iff_of_ofCanonical?`): a point whose first coordinate is zero has this
number or none, and points whose second coordinate is zero are refused.

So every string that is read is the encoding of what it is read as, and that is never the
identity. The strings that are read are the encodings of all elements but the identity, one
for each of them (`Point.decode_canonical`).
-/

namespace PrivateMatching

namespace Ristretto

open PrivateMatching.Modular

/-- Of the points that have a number, those whose first coordinate is zero have the number
    zero. -/
theorem Edwards.HasCode.x_eq_zero_iff {P : Edwards} {s : Field} (h : P.HasCode s) :
    P.x = 0 ↔ s = 0 := by
  rw [HasCode] at h
  constructor
  · intro hx
    have hne : 1 + P.y ≠ 0 := by
      intro hy
      have htwo : (2 : ZMod fieldPrime) = 0 := by
        linear_combination -h + (toZMod s ^ 2 + 1) * hy
      exact two_ne_zero htwo
    -- As its square is one, the second coordinate is one.
    have hy : P.y = 1 := by
      have hmul : (1 + P.y) * (P.y - 1) = 0 := by linear_combination sq_y_of_x_eq_zero hx
      exact sub_eq_zero.1 ((mul_eq_zero.1 hmul).resolve_left hne)
    have hsq : toZMod s ^ 2 * 2 = 0 := by
      rw [hy] at h
      linear_combination h
    exact toZMod_eq_zero.1
      ((pow_eq_zero_iff two_ne_zero).1 ((mul_eq_zero.1 hsq).resolve_right two_ne_zero))
  · rintro rfl
    have hy : P.y = 1 := by
      rw [toZMod_zero] at h
      linear_combination h
    have hx : P.x ^ 2 * (1 + constD * P.y ^ 2) = 0 := by
      linear_combination -P.equation + (P.y + 1) * hy
    exact (pow_eq_zero_iff two_ne_zero).1
      ((mul_eq_zero.1 hx).resolve_right (one_add_mul_sq_ne_zero P.y))

namespace Point

variable {p q : Point} {bytes bytes' : Bytes}

/-! ## The identity -/

/-- A point whose second coordinate is zero is refused. -/
theorem y_ne_zero_of_ofCanonical? {s : Field} (h : ofCanonical? s = some p) : p.y ≠ 0 := by
  rw [ofCanonical?_eq] at h
  split at h
  · cases h
  · rename_i hcond
    simp only [Bool.or_eq_true, beq_iff_eq, not_or] at hcond
    rw [← Option.some.inj h]
    exact hcond.2

/-- The identity is found at zero only. -/
theorem isIdentity_iff_of_ofCanonical? {s : Field} (h : ofCanonical? s = some p) :
    p.isIdentity = true ↔ s = 0 := by
  obtain ⟨P, hp, _, hcode, _, _⟩ := of_ofCanonical? h
  have hy : P.y ≠ 0 := by
    intro h0
    refine y_ne_zero_of_ofCanonical? h (toZMod_eq_zero.1 ?_)
    rw [hp.y_eq, h0, zero_mul]
  rw [hp.isIdentity_iff, hp.quadruple_eq_one_iff, mul_eq_zero, or_iff_left hy,
    hcode.x_eq_zero_iff]

/-- At zero a point is found. -/
theorem exists_ofCanonical?_zero : ∃ p, ofCanonical? 0 = some p :=
  Option.isSome_iff_exists.1 (by decide +kernel)

/-! ## Which strings are read -/

/-- The string of zeros is read as the identity, and refused. -/
theorem decode_zeros : decode (List.replicate width 0) = .error .identity := by
  obtain ⟨p, hp⟩ := exists_ofCanonical?_zero
  have hvalue : Bytes.toNatLE (List.replicate width 0) = (0 : Field).val := by decide
  have hfound : ofValue? (0 : Field).val = some p :=
    ofValue?_eq_some.2 ⟨0, rfl, Field.isNegative_zero, hp⟩
  rw [decode, if_neg (not_not.2 List.length_replicate), hvalue, hfound]
  simp only [(isIdentity_iff_of_ofCanonical? hp).2 rfl, if_true]

/-- So is the encoding of the identity, which is that string. -/
theorem decode_encode_identity : decode identity.encode = .error .identity := by
  have hzeros : identity.encode = List.replicate width 0 := by decide +kernel
  rw [hzeros, decode_zeros]

/-- A string of the right width that is read as the identity is that of zeros. -/
theorem eq_zeros_of_isIdentity (hwidth : bytes.length = width)
    (hfound : ofValue? (Bytes.toNatLE bytes) = some p) (h : p.isIdentity = true) :
    bytes = List.replicate width 0 := by
  obtain ⟨s, hs, _, hp⟩ := ofValue?_eq_some.1 hfound
  obtain rfl := (isIdentity_iff_of_ofCanonical? hp).1 h
  have hbytes := Bytes.ofNatLE_toNatLE bytes
  rw [hwidth, ← hs] at hbytes
  rw [← hbytes]
  decide

/-- What reading a string gives. -/
theorem decode_cases (bytes : Bytes) :
    (bytes.length ≠ width ∧ decode bytes = .error (.wrongLength width bytes.length)) ∨
    (bytes = List.replicate width 0 ∧ decode bytes = .error .identity) ∨
    (bytes.length = width ∧ bytes ≠ List.replicate width 0 ∧
      ((∃ p, decode bytes = .ok p) ∨ decode bytes = .error .malformed)) := by
  by_cases hwidth : bytes.length = width
  · right
    by_cases hzeros : bytes = List.replicate width 0
    · exact .inl ⟨hzeros, hzeros ▸ decode_zeros⟩
    · refine .inr ⟨hwidth, hzeros, ?_⟩
      cases hfound : ofValue? (Bytes.toNatLE bytes) with
      | none => exact .inr (by rw [decode, if_neg (not_not.2 hwidth), hfound])
      | some p =>
        have hne : ¬p.isIdentity = true := mt (eq_zeros_of_isIdentity hwidth hfound) hzeros
        refine .inl ⟨p, ?_⟩
        rw [decode, if_neg (not_not.2 hwidth), hfound]
        exact if_neg hne
  · exact .inl ⟨hwidth, by rw [decode, if_pos hwidth]⟩

theorem decode_eq_wrongLength_iff {expected actual : ℕ} :
    decode bytes = .error (.wrongLength expected actual) ↔
      bytes.length ≠ width ∧ expected = width ∧ actual = bytes.length := by
  rcases decode_cases bytes with ⟨h, hread⟩ | ⟨rfl, hread⟩ | ⟨h, _, ⟨p, hread⟩ | hread⟩
  · simp only [hread, Except.error.injEq, EncodingFault.wrongLength.injEq, ne_eq, h,
      not_false_eq_true, true_and, eq_comm]
  · simp [hread]
  · simp [hread, h]
  · simp [hread, h]

theorem decode_eq_identity_iff :
    decode bytes = .error .identity ↔ bytes = List.replicate width 0 := by
  rcases decode_cases bytes with ⟨h, hread⟩ | ⟨rfl, hread⟩ | ⟨_, h, ⟨p, hread⟩ | hread⟩
  · have hne : bytes ≠ List.replicate width 0 := fun hzeros => h (hzeros ▸ List.length_replicate)
    simp [hread, hne]
  · simp [hread]
  · simp [hread, h]
  · simp [hread, h]

theorem isIdentity_of_decode (h : decode bytes = .ok p) : p.isIdentity = false :=
  (decode_eq_ok.1 h).1

/-- The strings that are read are the encodings of the elements other than the
    identity. -/
theorem exists_decode_eq_ok_iff : (∃ p, decode bytes = .ok p) ↔
    ∃ p : Point, p.Sound ∧ p.isIdentity = false ∧ p.encode = bytes := by
  constructor
  · rintro ⟨p, h⟩
    exact ⟨p, reading.sound_of_decode h, isIdentity_of_decode h, encode_of_decode h⟩
  · rintro ⟨p, ⟨P, hp, heven⟩, hne, rfl⟩
    rw [← Bool.not_eq_true, hp.isIdentity_iff, hp.quadruple_eq_one_iff] at hne
    obtain ⟨q, hq, _⟩ := decode_encode hp heven hne
    exact ⟨q, hq⟩

/-- Two strings that are read are read as one element only if they are the same. -/
theorem equal_iff_of_decode (h : decode bytes = .ok p) (h' : decode bytes' = .ok q) :
    p.equal q = true ↔ bytes = bytes' := by
  have hp : p.Sound := reading.sound_of_decode h
  have hq : q.Sound := reading.sound_of_decode h'
  constructor
  · intro hequal
    rw [← encode_of_decode h, ← encode_of_decode h']
    exact reading_isCanonical.encode_congr hp hq ((reading.equal_iff hp hq).1 hequal)
  · rintro rfl
    obtain rfl : p = q := Except.ok.inj (h.symm.trans h')
    exact (reading.equal_iff hp hq).2 rfl

end Point

/-- The decoder of ristretto255 is canonical: what it reads is encoded as the string that
    was read and is not the identity, so an element is read from one string only. -/
theorem Point.decode_canonical :
    (∀ bytes : Bytes,
      (∀ expected actual, suite.decode bytes = .error (.wrongLength expected actual) ↔
        bytes.length ≠ 32 ∧ expected = 32 ∧ actual = bytes.length) ∧
      (suite.decode bytes = .error .identity ↔ bytes = List.replicate 32 0) ∧
      ((∃ p, suite.decode bytes = .ok p) ↔
        ∃ p : Point, p.Sound ∧ suite.isIdentity p = false ∧ suite.encode p = bytes) ∧
      ∀ p, suite.decode bytes = .ok p → suite.encode p = bytes ∧ suite.isIdentity p = false) ∧
    ∀ (bytes bytes' : Bytes) (p q : Point), suite.decode bytes = .ok p →
      suite.decode bytes' = .ok q → (suite.equal p q = true ↔ bytes = bytes') :=
  ⟨fun _ => ⟨fun _ _ => decode_eq_wrongLength_iff, decode_eq_identity_iff,
    exists_decode_eq_ok_iff, fun _ h => ⟨encode_of_decode h, isIdentity_of_decode h⟩⟩,
    fun _ _ _ _ => equal_iff_of_decode⟩

/-- The strings of the base point and of its double. -/
theorem Point.decode_canonical_generator : ∃ p q,
    suite.decode (suite.encode generator) = .ok p ∧
      suite.encode p = suite.encode generator ∧ suite.isIdentity p = false ∧
      suite.decode (suite.encode generator.double) = .ok q ∧ ¬suite.equal p q = true := by
  obtain ⟨hstring, hequal⟩ := decode_canonical
  have hgenerator : generator.Sound := reading.sound_generator
  have hdouble : generator.double.Sound := by
    obtain ⟨P, hp, hP⟩ := hgenerator
    exact ⟨P + P, hp.double, Edwards.even.add_mem hP hP⟩
  obtain ⟨p, hp⟩ := (hstring _).2.2.1.2 ⟨generator, hgenerator, by decide +kernel, rfl⟩
  obtain ⟨q, hq⟩ := (hstring _).2.2.1.2 ⟨generator.double, hdouble, by decide +kernel, rfl⟩
  obtain ⟨hencode, hidentity⟩ := (hstring _).2.2.2 p hp
  refine ⟨p, q, hp, hencode, hidentity, hq, ?_⟩
  rw [hequal _ _ p q hp hq]
  decide +kernel

end Ristretto

end PrivateMatching
