import PrivateMatching.Proofs.Bytes
import PrivateMatching.Proofs.P256.Cubic
import PrivateMatching.Proofs.Squares

/-!
# Compressed points are read back

The field finds the root of every square (`Field.sqrt?_eq_some`), and the parity
picks the right one of the two, `0` being no second coordinate of a point
(`Field.withParity_isOdd`). So a point of the curve is read from its compressed
form (`Point.decode_encode`), what is read is on the curve
(`Point.isOnCurve_of_decode`), and it is compressed to the string it was read
from (`Point.encode_of_decode`).
-/

namespace PrivateMatching

namespace P256

open PrivateMatching.Modular

namespace Field

/-! ## Square roots -/

/-- The candidate is a root of every square. -/
theorem rootCandidate_sq {a : Field} (h : IsSquare (toZMod a)) :
    rootCandidate a * rootCandidate a = a := by
  obtain ⟨c, hc⟩ := h
  have hexponent : 2 * ((fieldPrime + 1) / 4 + (fieldPrime + 1) / 4) = fieldPrime + 1 := by decide
  -- For a square, the exponents of both factors add up to one more than the prime.
  rw [← toZMod_inj, toZMod_mul, rootCandidate, toZMod_pow, ← pow_add, hc, ← sq, ← pow_mul,
    hexponent, pow_succ, ZMod.pow_card, sq]

/-- Every square has its root found. -/
theorem sqrt?_eq_some {a : Field} (h : IsSquare (toZMod a)) : sqrt? a = some (rootCandidate a) := by
  rw [sqrt?]
  exact if_pos (rootCandidate_sq h)

/-- What is found is a root. -/
theorem sq_of_sqrt? {a r : Field} (h : sqrt? a = some r) : r * r = a := by
  rw [sqrt?] at h
  split at h
  · rename_i hroot
    rwa [Option.some.inj h] at hroot
  · cases h

/-- Only squares have a root. -/
theorem not_isSquare_of_sqrt? {a : Field} (h : sqrt? a = none) : ¬IsSquare (toZMod a) := by
  intro hsquare
  rw [sqrt?_eq_some hsquare] at h
  cases h

/-! ## Parity -/

/-- The negative of an element that is not zero has the other parity. -/
theorem isOdd_neg {a : Field} (h : a ≠ 0) : isOdd (-a) = !isOdd a := by
  rw [isOdd, isOdd, Modular.neg_mod_two h]
  rcases Nat.mod_two_eq_zero_or_one a.val with h' | h' <;> rw [h'] <;> rfl

theorem withParity_sq (odd : Bool) (a : Field) :
    withParity odd a * withParity odd a = a * a := by
  rw [withParity]
  split
  · rfl
  · rw [← toZMod_inj, toZMod_mul, toZMod_mul, toZMod_neg, neg_mul_neg]

/-- The parity is the one that was asked for. -/
theorem isOdd_withParity (odd : Bool) {a : Field} (h : a ≠ 0) : isOdd (withParity odd a) = odd := by
  rw [withParity]
  split
  · assumption
  · rename_i hodd
    rw [isOdd_neg h]
    exact (Bool.eq_not.2 (Ne.symm hodd)).symm

/-- Of the roots of a square, the parity of a root picks that root. -/
theorem withParity_isOdd {a r : Field} (ha : a ≠ 0) (h : r * r = a * a) :
    withParity (isOdd a) r = a := by
  have hr : r = a ∨ r = -a := by
    rw [← toZMod_inj, ← toZMod_inj, toZMod_neg]
    exact mul_self_eq_mul_self_iff.1 (by rw [← toZMod_mul, h, toZMod_mul])
  rw [withParity]
  rcases hr with rfl | rfl
  · exact if_pos rfl
  · rw [if_neg, neg_neg]
    rw [isOdd_neg ha]
    exact Bool.not_ne_self _

end Field

namespace Point

/-! ## Compressed forms -/

theorem length_encode (p : Point) : (encode p).length = width := by
  rcases p with _ | ⟨x, y⟩
  · exact List.length_replicate
  · rw [encode, List.length_cons, Bytes.length_ofNatBE]
    rfl

theorem tagParity?_parityTag (odd : Bool) : tagParity? (parityTag odd) = some odd := by
  cases odd <;> rfl

theorem parityTag_of_tagParity? {tag : UInt8} {odd : Bool} (h : tagParity? tag = some odd) :
    parityTag odd = tag := by
  rw [tagParity?] at h
  split at h
  · rename_i htag
    rw [← Option.some.inj h, htag]
    rfl
  split at h
  · rename_i htag
    rw [← Option.some.inj h, htag]
    rfl
  · cases h

/-- A point of the curve is lifted from its first coordinate and its parity. -/
theorem lift?_of_isOnCurve {x y : Field} (h : (affine x y).isOnCurve = true) :
    lift? (Field.isOdd y) x.val = some (affine x y) := by
  have hsq : y * y = curveValue x := eq_of_beq h
  have hsquare : IsSquare (toZMod (curveValue x)) := ⟨toZMod y, by rw [← hsq, toZMod_mul]⟩
  have hroot := Field.rootCandidate_sq hsquare
  rw [← hsq] at hroot
  rw [lift?, dif_pos x.isLt, Fin.eta, Field.sqrt?_eq_some hsquare, Option.map_some, ← hsq,
    Field.withParity_isOdd (ne_zero_of_isOnCurve h) hroot]

/-- What is lifted is a point of the curve with that first coordinate and that
    parity. -/
theorem of_lift? {odd : Bool} {n : ℕ} {p : Point} (h : lift? odd n = some p) :
    ∃ x y, p = affine x y ∧ (affine x y).isOnCurve = true ∧ x.val = n ∧ Field.isOdd y = odd := by
  rw [lift?] at h
  split at h
  · rename_i hn
    obtain ⟨r, hr, rfl⟩ := Option.map_eq_some_iff.1 h
    have hsq := Field.sq_of_sqrt? hr
    have hr0 : r ≠ 0 := by
      rintro rfl
      exact curveValue_ne_zero ⟨n, hn⟩ hsq.symm
    refine ⟨⟨n, hn⟩, Field.withParity odd r, rfl, ?_, rfl, Field.isOdd_withParity odd hr0⟩
    rw [isOnCurve, Field.withParity_sq, hsq, beq_self_eq_true]
  · cases h

/-- A point of the curve other than the identity is read from its compressed
    form. -/
theorem decode_encode {x y : Field} (h : (affine x y).isOnCurve = true) :
    decode (encode (affine x y)) = .ok (affine x y) := by
  have hvalue : Bytes.toNatBE (Bytes.ofNatBE 32 x.val) = x.val :=
    Bytes.toNat_ofNat .big (x.isLt.trans (by decide))
  have htag : (encode (affine x y)).all (· == 0) = false := by
    rw [encode, List.all_cons]
    cases Field.isOdd y <;> rfl
  rw [decode, if_neg (not_not.2 (length_encode _)), htag, if_neg Bool.false_ne_true, encode,
    ofCompressed?, tagParity?_parityTag, Option.bind_some, hvalue, lift?_of_isOnCurve h]

/-- The compressed form of the identity is refused as such. -/
theorem decode_encode_infinity : decode (encode infinity) = .error .identity := by rfl

/-- What a point is read from. -/
theorem of_decode {bytes : Bytes} {p : Point} (h : decode bytes = .ok p) :
    ∃ x y, p = affine x y ∧ (affine x y).isOnCurve = true ∧ encode p = bytes := by
  rw [decode] at h
  split at h
  · cases h
  rename_i hwidth
  split at h
  · cases h
  split at h
  · cases h
  rename_i q hq
  cases h
  match bytes, hq with
  | tag :: rest, hq =>
    obtain ⟨odd, hodd, hlift⟩ := Option.bind_eq_some_iff.1 hq
    obtain ⟨x, y, rfl, hcurve, hx, hy⟩ := of_lift? hlift
    have hrest : rest.length = 32 := by simpa [width] using hwidth
    refine ⟨x, y, rfl, hcurve, ?_⟩
    rw [encode, hy, parityTag_of_tagParity? hodd, hx, ← hrest, Bytes.ofNatBE_toNatBE]

/-- What is read is on the curve. -/
theorem isOnCurve_of_decode {bytes : Bytes} {p : Point} (h : decode bytes = .ok p) :
    p.isOnCurve = true := by
  obtain ⟨x, y, rfl, hcurve, _⟩ := of_decode h
  exact hcurve

/-- What is read is not the identity. -/
theorem ne_infinity_of_decode {bytes : Bytes} {p : Point} (h : decode bytes = .ok p) :
    p ≠ infinity := by
  obtain ⟨x, y, rfl, _⟩ := of_decode h
  exact fun h' => Point.noConfusion h'

/-- A string that is read is the compressed form of its point. -/
theorem encode_of_decode {bytes : Bytes} {p : Point} (h : decode bytes = .ok p) :
    encode p = bytes := by
  obtain ⟨_, _, _, _, hencode⟩ := of_decode h
  exact hencode

end Point

end P256

end PrivateMatching
