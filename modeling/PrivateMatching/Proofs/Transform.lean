import PrivateMatching.Proofs.Context
import PrivateMatching.Proofs.Exponent
import PrivateMatching.Proofs.Reachable
import PrivateMatching.Proofs.Ristretto.Canonical

/-!
# Only the identity makes a layer fail

A layer is checked for its results: it fails on an element if the power is the identity. In a
group of prime order this is a matter of the element alone, as the exponent of a key is not zero
in either direction: a layer fails on the identity and on nothing else
(`Layer.apply_eq_error_iff`). So a layer on a list of elements fails if and only if the identity
is among them, wherever it stands (`Batch.transform_eq_error_iff`), and otherwise its results are
the powers in place, none of which is written as the identity is
(`Batch.encode_one_not_mem_of_transform`).

Decoding never gives the identity, so no operation gets there. What is stated here is about all
elements of the group of a context (`Context.IsElement`), however they come about
(`Context.transform_exact`).
-/

namespace PrivateMatching

/-! ## Groups of prime order -/

section Reading

variable {C : Suite} {G : Type*} [CommGroup G] {R : C.Reading G} {x : C.Element}
  {xs : List C.Element} {layer : Layer C}

namespace Suite.Reading

/-- The identity is what is equal to it. -/
theorem equal_one_iff (hx : R.Sound x) : C.equal x C.one = true ↔ R.value x = 1 := by
  rw [R.equal_iff hx R.sound_one, R.value_one]

/-- A power is written as the repeated product is. -/
theorem IsCanonical.encode_exp (hR : R.IsCanonical) (hx : R.Sound x) (e : Scalar C.order) :
    C.encode (C.exp x e) = C.encode (C.repeated x e.val) := by
  obtain ⟨hsound, hvalue⟩ := R.repeated hx e.val
  exact hR.encode_congr (R.sound_exp hx e) hsound ((R.value_exp hx e).trans hvalue.symm)

/-- If the string of the identity is refused, no other element is written so. -/
theorem IsCanonical.encode_ne_encode_one (hR : R.IsCanonical)
    (hrefused : ∀ y, C.decode (C.encode C.one) ≠ .ok y) (hx : R.Sound x)
    (hone : R.value x ≠ 1) : C.encode x ≠ C.encode C.one := by
  intro h
  obtain ⟨y, hy, _⟩ := hR.decode_encode hx hone
  exact hrefused y (h ▸ hy)

end Suite.Reading

variable [Fact C.order.Prime]

/-- A layer whose exponent is not zero fails on the identity and on nothing else. -/
theorem Layer.apply_eq_error_iff (he : Modular.toZMod layer.exponent ≠ 0) (hx : R.Sound x)
    {fault : ArithmeticFault} :
    layer.apply x = .error fault ↔ R.value x = 1 ∧ fault = .identityResult layer.direction := by
  have hidentity : C.isIdentity (C.exp x layer.exponent) = true ↔ R.value x = 1 := by
    rw [R.isIdentity_iff (R.sound_exp hx _), R.value_exp hx, R.pow_eq_one_iff hx he]
  rw [Layer.apply]
  by_cases hone : R.value x = 1
  · simp only [if_pos (hidentity.2 hone), hone, true_and, Except.error.injEq]
    exact eq_comm
  · simp only [if_neg (hidentity.not.2 hone), hone, false_and, reduceCtorEq]

namespace Batch

/-- A layer fails on a list if and only if the identity is in it. -/
theorem transform_eq_error_iff (he : Modular.toZMod layer.exponent ≠ 0)
    (hxs : ∀ x ∈ xs, R.Sound x) {fault : ArithmeticFault} :
    transform layer xs = .error fault ↔
      (∃ x ∈ xs, R.value x = 1) ∧ fault = .identityResult layer.direction := by
  induction xs with
  | nil => simp [transform]
  | cons x xs ih =>
    obtain ⟨hx, hrest⟩ := List.forall_mem_cons.1 hxs
    rw [transform, List.exists_mem_cons_iff]
    by_cases hone : R.value x = 1
    · -- The first fault is the one that is reported, and all faults are alike.
      rw [(Layer.apply_eq_error_iff he hx).2 ⟨hone, rfl⟩]
      simp only [hone, true_or, true_and, Except.error.injEq]
      exact eq_comm
    · rw [apply_layer R hx hone he]
      simp only [hone, false_or]
      rw [← ih hrest]
      cases transform layer xs with
      | error cause => rfl
      | ok output => simp

/-- Otherwise its results are the powers of the elements, in place. -/
theorem transform_eq_ok_iff (hR : R.IsCanonical) (he : Modular.toZMod layer.exponent ≠ 0)
    (hxs : ∀ x ∈ xs, R.Sound x) {output : List Bytes} :
    transform layer xs = .ok output ↔ (∀ x ∈ xs, R.value x ≠ 1) ∧
      output = xs.map fun x => C.encode (C.repeated x layer.exponent.val) := by
  by_cases hone : ∃ x ∈ xs, R.value x = 1
  · rw [(transform_eq_error_iff he hxs).2 ⟨hone, rfl⟩]
    obtain ⟨x, hx, hvalue⟩ := hone
    exact iff_of_false (by rintro ⟨⟩) fun h => h.1 x hx hvalue
  · have hne : ∀ x ∈ xs, R.value x ≠ 1 := fun x hx hvalue => hone ⟨x, hx, hvalue⟩
    have hmap : (xs.map fun x => C.encode (C.exp x layer.exponent)) =
        xs.map fun x => C.encode (C.repeated x layer.exponent.val) :=
      List.map_congr_left fun x hx => hR.encode_exp (hxs x hx) _
    rw [← hmap, transform_eq R (fun x hx => ⟨hxs x hx, hne x hx⟩) he layer.direction,
      Except.ok.injEq, eq_comm, and_iff_right hne]

/-- The identity is not among the results. -/
theorem encode_one_not_mem_of_transform (hR : R.IsCanonical)
    (hrefused : ∀ y, C.decode (C.encode C.one) ≠ .ok y)
    (he : Modular.toZMod layer.exponent ≠ 0) (hxs : ∀ x ∈ xs, R.Sound x) {output : List Bytes}
    (h : transform layer xs = .ok output) : C.encode C.one ∉ output := by
  obtain ⟨hne, rfl⟩ := (transform_eq_ok_iff hR he hxs).1 h
  intro hmem
  obtain ⟨x, hx, hencode⟩ := List.mem_map.1 hmem
  rw [← hR.encode_exp (hxs x hx)] at hencode
  exact hR.encode_ne_encode_one hrefused (R.sound_exp (hxs x hx) _)
    (R.value_exp_ne_one (hxs x hx) (hne x hx) he) hencode

end Batch

end Reading

/-! ## The elements of a context -/

namespace Context

/-- The representations of the elements of the group: a point of the curve of P-256, a point
    that stands for an even point of the Edwards curve, or a square modulo the prime. -/
def IsElement : (c : Context) → c.suite.Element → Prop
  | p256 => P256.Point.IsMember
  | ristretto255 => Ristretto.Point.Sound
  | toy => QuadraticResidue.Residue.IsMember

/-- The elements of a context are read in its group. -/
theorem exists_reading_isElement (c : Context) :
    ∃ (G : Type) (_ : CommGroup G) (R : c.suite.Reading G), R.IsCanonical ∧
      ∀ x, c.IsElement x → R.Sound x := by
  cases c with
  | p256 =>
    exact ⟨_, _, P256.reading, P256.reading_isCanonical, fun _ => P256.Point.isMember_iff.1⟩
  | ristretto255 =>
    exact ⟨_, _, Ristretto.reading, Ristretto.reading_isCanonical, fun _ h => h⟩
  | toy =>
    exact ⟨_, _, QuadraticResidue.reading, QuadraticResidue.reading_isCanonical,
      fun _ => QuadraticResidue.Residue.IsMember.sound⟩

/-- The string of the identity is refused as such. -/
theorem decode_encode_one (c : Context) :
    c.suite.decode (c.suite.encode c.suite.one) = .error .identity := by
  cases c with
  | p256 => exact P256.Point.decode_encode_infinity
  | ristretto255 =>
    change Ristretto.suite.decode (Ristretto.suite.encode _) = _
    rw [Ristretto.suite_decode, Ristretto.suite_encode]
    exact Ristretto.Point.decode_encode_identity
  | toy => exact QuadraticResidue.Residue.decode_encode_one

/-- Only the identity makes a layer fail. A key has a layer in each direction, with the exponent
    by which the key acts. On a list of elements it fails if and only if the identity is among
    them, which the failure says with the direction; otherwise its results are the encodings of
    the powers, in place, and never that of the identity. -/
theorem transform_exact (c : Context) (key : Key c.suite) (direction : Direction) :
    ∃ layer, Layer.ofKey key direction = .ok layer ∧
      Modular.toZMod layer.exponent = key.factor direction ∧
      ∀ xs : List c.suite.Element, (∀ x ∈ xs, c.IsElement x) →
        (∀ fault, Batch.transform layer xs = .error fault ↔
          (∃ x ∈ xs, c.suite.equal x c.suite.one = true) ∧ fault = .identityResult direction) ∧
        (∀ output, Batch.transform layer xs = .ok output ↔
          (∀ x ∈ xs, ¬c.suite.equal x c.suite.one = true) ∧
            output = xs.map fun x => c.suite.encode (c.suite.repeated x layer.exponent.val)) ∧
        ∀ output, Batch.transform layer xs = .ok output → c.suite.encode c.suite.one ∉ output := by
  have := Fact.mk c.isLawful.prime_order
  have := Fact.mk c.isLawful.two_lt_order
  obtain ⟨e, he, hlayer⟩ := Layer.ofKey_eq key direction
  obtain ⟨G, _, R, hR, hsound⟩ := c.exists_reading_isElement
  have hne : Modular.toZMod e ≠ 0 := he ▸ key.factor_ne_zero direction
  have hrefused : ∀ y, c.suite.decode (c.suite.encode c.suite.one) ≠ .ok y := by
    intro y hy
    rw [c.decode_encode_one] at hy
    cases hy
  refine ⟨_, hlayer, he, fun xs hxs => ?_⟩
  have hxs : ∀ x ∈ xs, R.Sound x := fun x hx => hsound x (hxs x hx)
  have hequal : ∀ x ∈ xs, (c.suite.equal x c.suite.one = true ↔ R.value x = 1) :=
    fun x hx => R.equal_one_iff (hxs x hx)
  refine ⟨fun fault => ?_, fun output => ?_, fun output h => ?_⟩
  · rw [Batch.transform_eq_error_iff hne hxs]
    exact and_congr_left' (exists_congr fun x => and_congr_right fun hx => (hequal x hx).symm)
  · rw [Batch.transform_eq_ok_iff hR hne hxs]
    exact and_congr_left' (forall₂_congr fun x hx => (hequal x hx).not.symm)
  · exact Batch.encode_one_not_mem_of_transform hR hrefused hne hxs h

/-- The layer of the key three, stripped: a list with the identity in it fails, and the same
    list without it does not. -/
theorem transform_exact_three : ∃ layer : Layer toy.suite,
    Layer.ofKey (C := toy.suite) ⟨(3 : Scalar 1019), by decide⟩ .inverse = .ok layer ∧
      Batch.transform layer [⟨4⟩, ⟨1⟩, ⟨9⟩] = .error (.identityResult .inverse) ∧
      ∃ output, Batch.transform layer [⟨4⟩, ⟨9⟩] = .ok output ∧ [0, 1] ∉ output := by
  obtain ⟨layer, hlayer, _, hall⟩ :=
    transform_exact toy ⟨(3 : Scalar 1019), by decide⟩ .inverse
  have hone : toy.IsElement ⟨1⟩ := ⟨by decide, by decide, 1, by decide⟩
  have hfour : toy.IsElement ⟨4⟩ := ⟨by decide, by decide, 2, by decide⟩
  have hnine : toy.IsElement ⟨9⟩ := ⟨by decide, by decide, 3, by decide⟩
  have hlast : ∀ x ∈ [(⟨9⟩ : toy.suite.Element)], toy.IsElement x :=
    List.forall_mem_singleton.2 hnine
  obtain ⟨hfails, _⟩ :=
    hall _ (List.forall_mem_cons.2 ⟨hfour, List.forall_mem_cons.2 ⟨hone, hlast⟩⟩)
  obtain ⟨_, hok, hnot⟩ := hall _ (List.forall_mem_cons.2 ⟨hfour, hlast⟩)
  have houtput := (hok _).2 ⟨by decide, rfl⟩
  exact ⟨layer, hlayer, (hfails _).2 ⟨⟨⟨1⟩, .tail _ (.head _), rfl⟩, rfl⟩, _, houtput,
    hnot _ houtput⟩

end Context

end PrivateMatching
