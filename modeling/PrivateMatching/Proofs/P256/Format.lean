import PrivateMatching.P256.Suite
import PrivateMatching.Proofs.P256.Compressed

/-!
# The format of compressed points

Reading a string has four outcomes (`Point.decode_cases`): the width is wrong, all
bytes are zero, the string is a tag and the first coordinate of a point
(`Point.IsCompressed`), or none of these. That the coordinate belongs to a point
is a condition on squares modulo the prime, which the root at a fixed power
decides.

So the strings that are read are in bijection with the points of the curve other
than the identity, and a point is read from its compressed form in whatever
coordinates it is given (`Point.decode_format`).
-/

namespace PrivateMatching

namespace P256

open PrivateMatching.Modular

namespace Point

/-! ## Which strings are read -/

/-- A number is below the prime, and the right-hand side of the curve is a square
    there. -/
def IsFirstCoordinate (n : ℕ) : Prop := n < fieldPrime ∧ IsSquare (rightSide n)

/-- A tag of a parity, and the first coordinate of a point of the curve. -/
inductive IsCompressed : Bytes → Prop
  | intro {tag : UInt8} {x : Bytes} (htag : tag = 2 ∨ tag = 3) (hlength : x.length = 32)
    (hx : IsFirstCoordinate (Bytes.toNatBE x)) : IsCompressed (tag :: x)

theorem IsCompressed.length_eq {bytes : Bytes} (h : IsCompressed bytes) :
    bytes.length = width := by
  obtain ⟨_, hlength, _⟩ := h
  rw [List.length_cons, hlength]
  rfl

theorem IsCompressed.ne_zeros {bytes : Bytes} (h : IsCompressed bytes) :
    bytes ≠ List.replicate width 0 := by
  obtain ⟨htag, _, _⟩ := h
  intro hzeros
  rw [width, List.replicate_succ, List.cons.injEq] at hzeros
  rcases htag with rfl | rfl <;> exact absurd hzeros.1 (by decide)

/-- The tags are two and three. -/
theorem exists_tagParity?_iff {tag : UInt8} :
    (∃ odd, tagParity? tag = some odd) ↔ tag = 2 ∨ tag = 3 := by
  constructor
  · rintro ⟨odd, hodd⟩
    rw [← parityTag_of_tagParity? hodd]
    cases odd
    · exact .inl rfl
    · exact .inr rfl
  · rintro (rfl | rfl)
    · exact ⟨false, rfl⟩
    · exact ⟨true, rfl⟩

/-- The numbers that are lifted are the first coordinates, whatever the parity. -/
theorem exists_lift?_iff {odd : Bool} {n : ℕ} :
    (∃ p, lift? odd n = some p) ↔ IsFirstCoordinate n := by
  constructor
  · rintro ⟨p, hp⟩
    obtain ⟨x, y, rfl, hcurve, rfl, _⟩ := of_lift? hp
    refine ⟨x.isLt, toZMod y, ?_⟩
    rw [rightSide, ← sq]
    exact (isOnCurve_affine.1 hcurve).symm
  · rintro ⟨hn, hsquare⟩
    -- The condition is on the right-hand side of the curve, read modulo the prime.
    have hvalue : IsSquare (toZMod (curveValue ⟨n, hn⟩)) := by
      rwa [toZMod_curveValue, toZMod_mk, ← rightSide]
    exact ⟨_, by rw [lift?, dif_pos hn, Field.sqrt?_eq_some hvalue, Option.map_some]⟩

/-- A tag and a first coordinate are read as a point if they are a compressed
    form. -/
theorem exists_ofCompressed?_iff {tag : UInt8} {x : Bytes} (hlength : x.length = 32) :
    (∃ p, ofCompressed? (tag :: x) = some p) ↔ IsCompressed (tag :: x) := by
  constructor
  · rintro ⟨p, hp⟩
    obtain ⟨odd, hodd, hlift⟩ := Option.bind_eq_some_iff.1 hp
    exact .intro (exists_tagParity?_iff.1 ⟨odd, hodd⟩) hlength (exists_lift?_iff.1 ⟨p, hlift⟩)
  · rintro ⟨htag, _, hx⟩
    obtain ⟨odd, hodd⟩ := exists_tagParity?_iff.2 htag
    obtain ⟨p, hp⟩ := exists_lift?_iff.2 hx
    exact ⟨p, Option.bind_eq_some_iff.2 ⟨odd, hodd, hp⟩⟩

theorem all_eq_zero_iff {bytes : Bytes} (hwidth : bytes.length = width) :
    bytes.all (· == 0) = true ↔ bytes = List.replicate width 0 := by
  rw [List.eq_replicate_iff, List.all_eq_true]
  simp only [beq_iff_eq, hwidth, true_and]

/-- What reading a string gives. -/
theorem decode_cases (bytes : Bytes) :
    (bytes.length ≠ width ∧ decode bytes = .error (.wrongLength width bytes.length)) ∨
    (bytes = List.replicate width 0 ∧ decode bytes = .error .identity) ∨
    (IsCompressed bytes ∧ ∃ p, decode bytes = .ok p) ∨
    (bytes.length = width ∧ bytes ≠ List.replicate width 0 ∧ ¬IsCompressed bytes ∧
      decode bytes = .error .malformed) := by
  by_cases hwidth : bytes.length = width
  · right
    by_cases hzeros : bytes = List.replicate width 0
    · exact .inl ⟨hzeros, hzeros ▸ decode_encode_infinity⟩
    · right
      have hall : ¬bytes.all (· == 0) = true := mt (all_eq_zero_iff hwidth).1 hzeros
      match bytes, hwidth with
      | tag :: x, hwidth =>
        have hlength : x.length = 32 := Nat.succ.inj hwidth
        cases hread : ofCompressed? (tag :: x) with
        | some p =>
          refine .inl ⟨(exists_ofCompressed?_iff hlength).1 ⟨p, hread⟩, p, ?_⟩
          rw [decode, if_neg (not_not.2 hwidth), if_neg hall, hread]
        | none =>
          refine .inr ⟨hwidth, hzeros, fun h => ?_, ?_⟩
          · obtain ⟨p, hp⟩ := (exists_ofCompressed?_iff hlength).2 h
            rw [hread] at hp
            cases hp
          · rw [decode, if_neg (not_not.2 hwidth), if_neg hall, hread]
  · exact .inl ⟨hwidth, by rw [decode, if_pos hwidth]⟩

theorem decode_eq_wrongLength_iff {bytes : Bytes} {expected actual : ℕ} :
    decode bytes = .error (.wrongLength expected actual) ↔
      bytes.length ≠ width ∧ expected = width ∧ actual = bytes.length := by
  rcases decode_cases bytes with ⟨h, hread⟩ | ⟨rfl, hread⟩ | ⟨h, p, hread⟩ | ⟨h, _, _, hread⟩
  · simp only [hread, Except.error.injEq, EncodingFault.wrongLength.injEq, ne_eq, h,
      not_false_eq_true, true_and, eq_comm]
  · simp [hread]
  · simp [hread, h.length_eq]
  · simp [hread, h]

theorem decode_eq_identity_iff {bytes : Bytes} :
    decode bytes = .error .identity ↔ bytes = List.replicate width 0 := by
  rcases decode_cases bytes with ⟨h, hread⟩ | ⟨rfl, hread⟩ | ⟨h, p, hread⟩ | ⟨_, h, _, hread⟩
  · have hne : bytes ≠ List.replicate width 0 := fun hzeros => h (hzeros ▸ List.length_replicate)
    simp [hread, hne]
  · simp [hread]
  · simp [hread, h.ne_zeros]
  · simp [hread, h]

theorem exists_decode_eq_ok_iff {bytes : Bytes} :
    (∃ p, decode bytes = .ok p) ↔ IsCompressed bytes := by
  rcases decode_cases bytes with ⟨h, hread⟩ | ⟨h, hread⟩ | ⟨h, p, hread⟩ | ⟨_, _, h, hread⟩
  · have hne : ¬IsCompressed bytes := mt IsCompressed.length_eq h
    simp [hread, hne]
  · have hne : ¬IsCompressed bytes := fun hform => hform.ne_zeros h
    simp [hread, hne]
  · simp [hread, h]
  · simp [hread, h]

theorem decode_eq_malformed_iff {bytes : Bytes} : decode bytes = .error .malformed ↔
    bytes.length = width ∧ bytes ≠ List.replicate width 0 ∧ ¬IsCompressed bytes := by
  rcases decode_cases bytes with
    ⟨h, hread⟩ | ⟨rfl, hread⟩ | ⟨h, p, hread⟩ | ⟨h, hzeros, hform, hread⟩
  · simp [hread, h]
  · simp [hread]
  · simp [hread, h]
  · simp only [hread, h, hzeros, hform, ne_eq, not_false_eq_true, and_self]

/-! ## Which points are read -/

/-- The parts of a string are those of the point that is read from it. -/
theorem parts_of_decode {bytes : Bytes} {p : Point} (h : decode bytes = .ok p) :
    ∃ tag rest x y, bytes = tag :: rest ∧ p = affine x y ∧ x.val = Bytes.toNatBE rest ∧
      y.val % 2 = tag.toNat % 2 ∧ toZMod y ^ 2 = toZMod x ^ 3 - 3 * toZMod x + constB := by
  obtain ⟨x, y, rfl, hcurve, rfl⟩ := of_decode h
  refine ⟨_, _, x, y, rfl, rfl, ?_, ?_, isOnCurve_affine.1 hcurve⟩
  · exact (Bytes.toNat_ofNat .big (x.isLt.trans (by decide))).symm
  · rw [Field.isOdd]
    rcases Nat.mod_two_eq_zero_or_one y.val with hy | hy <;> rw [hy] <;> rfl

/-- A point of the curve other than the identity is read from its compressed
    form. -/
theorem decode_encode_of_ne {p : Point} (hp : p.isOnCurve = true) (hne : p ≠ infinity) :
    decode (encode p) = .ok p := by
  rcases p with _ | ⟨x, y⟩
  · exact absurd rfl hne
  · exact decode_encode hp

/-- The points that are read are those of the curve other than the identity, each
    from one string. -/
theorem existsUnique_decode_iff {p : Point} :
    (∃! bytes, decode bytes = .ok p) ↔ p.isOnCurve = true ∧ p ≠ infinity := by
  constructor
  · rintro ⟨bytes, h, _⟩
    exact ⟨isOnCurve_of_decode h, ne_infinity_of_decode h⟩
  · rintro ⟨hp, hne⟩
    exact ⟨encode p, decode_encode_of_ne hp hne, fun bytes h => (encode_of_decode h).symm⟩

end Point

/-- The decoder of P-256 accepts exactly the compressed forms, and they are in
    bijection with the points of the curve other than the identity, in whatever
    coordinates a point is given. -/
theorem Point.decode_format :
    (∀ bytes : Bytes,
      (∀ expected actual, suite.decode bytes = .error (.wrongLength expected actual) ↔
        bytes.length ≠ 33 ∧ expected = 33 ∧ actual = bytes.length) ∧
      (suite.decode bytes = .error .identity ↔ bytes = List.replicate 33 0) ∧
      ((∃ p, suite.decode bytes = .ok p) ↔ IsCompressed bytes) ∧
      (suite.decode bytes = .error .malformed ↔
        bytes.length = 33 ∧ bytes ≠ List.replicate 33 0 ∧ ¬IsCompressed bytes) ∧
      ∀ p, suite.decode bytes = .ok p → suite.encode p = bytes ∧
        ∃ tag rest x y, bytes = tag :: rest ∧ p = affine x y ∧ x.val = Bytes.toNatBE rest ∧
          y.val % 2 = tag.toNat % 2 ∧ toZMod y ^ 2 = toZMod x ^ 3 - 3 * toZMod x + constB) ∧
    (∀ p : Point, (∃! bytes, suite.decode bytes = .ok p) ↔ p.isOnCurve = true ∧ p ≠ infinity) ∧
    (∀ p : Jacobian, p.OnCurve → p.z ≠ 0 →
      (suite.encode p.toPoint).length = 33 ∧ ∃ x y, p.toPoint = affine x y ∧
        suite.decode (suite.encode p.toPoint) = .ok (affine x y) ∧
        toZMod x * toZMod p.z ^ 2 = toZMod p.x ∧ toZMod y * toZMod p.z ^ 3 = toZMod p.y) ∧
    (∀ p : Homogeneous, p.OnCurve → p.z ≠ 0 →
      (suite.encode p.toPoint).length = 33 ∧ ∃ x y, p.toPoint = affine x y ∧
        suite.decode (suite.encode p.toPoint) = .ok (affine x y) ∧
        toZMod x * toZMod p.z = toZMod p.x ∧ toZMod y * toZMod p.z = toZMod p.y) := by
  refine ⟨fun bytes => ⟨fun _ _ => decode_eq_wrongLength_iff, decode_eq_identity_iff,
    exists_decode_eq_ok_iff, decode_eq_malformed_iff,
    fun p h => ⟨encode_of_decode h, parts_of_decode h⟩⟩, fun p => existsUnique_decode_iff, ?_, ?_⟩
  · intro p hp hz
    obtain ⟨x, y, hpoint, hx, hy⟩ := Jacobian.toPoint_eq hz
    have hcurve := hp.toPoint
    rw [hpoint] at hcurve ⊢
    exact ⟨length_encode (affine x y), x, y, rfl, decode_encode hcurve, hx, hy⟩
  · intro p hp hz
    obtain ⟨x, y, hpoint, hx, hy⟩ := Homogeneous.toPoint_eq hz
    have hcurve := hp.toPoint hz
    rw [hpoint] at hcurve ⊢
    exact ⟨length_encode (affine x y), x, y, rfl, decode_encode hcurve, hx, hy⟩

/-- The base point in homogeneous coordinates with the denominator two, its double
    in the coordinates in which it is worked out, and the tag of the base point. -/
theorem Point.decode_format_generator :
    (∃ p : Homogeneous, p.z = 2 ∧ p.toPoint = generator ∧
      suite.decode (suite.encode p.toPoint) = .ok generator) ∧
    (suite.encode generator.toJacobian.double.toPoint).length = 33 ∧
    ∃ tag rest x y, suite.encode generator = tag :: rest ∧ generator = affine x y ∧
      y.val % 2 = tag.toNat % 2 := by
  obtain ⟨hstring, _, hjacobian, hhomogeneous⟩ := decode_format
  have hdouble := (onCurve_toJacobian isOnCurve_generator).double
  obtain ⟨_, x, y, hpoint, hread, _⟩ :=
    hhomogeneous _ (Homogeneous.OnCurve.scale isOnCurve_generator 2) (by decide)
  have hgenerator : affine x y = generator := hpoint ▸ (by decide +kernel)
  rw [hgenerator] at hpoint hread
  refine ⟨⟨_, rfl, hpoint, hread⟩, (hjacobian _ hdouble (by decide +kernel)).1, ?_⟩
  rw [hpoint] at hread
  obtain ⟨_, _, _, _, hbytes, hp, _, hparity, _⟩ := ((hstring _).2.2.2.2 _ hread).2
  exact ⟨_, _, _, _, hbytes, hp, hparity⟩

end P256

end PrivateMatching
