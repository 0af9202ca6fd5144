import PrivateMatching.Proofs.Context

/-!
# Keys act faithfully and freely

In a group of prime order an exponent is told by what it makes of a single element other
than the identity. So two keys that are not the same never give the same string at any
position of a batch (`Batch.getElem?_eq_iff_exponent`), and a key that is not the one of a
layer does not strip it from any position (`Operation.stripped_of_isLawful`). Nor does a
layer merge or separate what is at different positions (`Batch.getElem?_eq_iff_position`).
All of this holds of every context (`Context.action_faithful`).
-/

namespace PrivateMatching

/-! ## Keys and their exponents -/

/-- Accepted keys have the same exponent if and only if they are the same string. -/
theorem Key.factor_eq_iff {C : Suite} [Fact C.order.Prime] {a b : Bytes} {ka kb : Key C}
    (ha : Key.load C a = .ok ka) (hb : Key.load C b = .ok kb) (direction : Direction) :
    ka.factor direction = kb.factor direction ↔ a = b := by
  have hscalar : ka.factor direction = kb.factor direction ↔ ka.scalar = kb.scalar := by
    cases direction with
    | forward => exact Modular.toZMod_inj
    | inverse => exact inv_inj.trans Modular.toZMod_inj
  rw [hscalar, ← Key.toBytes_of_load ha, ← Key.toBytes_of_load hb]
  constructor
  · intro h
    rw [Key.toBytes, h, ← Key.toBytes]
  · intro h
    have hload := Key.load_toBytes ka
    rw [h, Key.load_toBytes kb] at hload
    rw [Except.ok.inj hload]

section Canonical

variable {C : Suite} {G : Type*} [CommGroup G] {R : C.Reading G}

/-! ## Strings and powers -/

/-- Each element of a list is at its position in the batch that stands for the list. -/
theorem Batch.exists_getElem? {elements : List Bytes} {gs : List G}
    (h : List.Forall₂ (Encodes R) elements gs) {i : ℕ} {g : G} (hg : gs[i]? = some g) :
    ∃ bytes, elements[i]? = some bytes ∧ Encodes R bytes g := by
  induction h generalizing i with
  | nil => cases hg
  | cons hb _ ih =>
    cases i with
    | zero =>
      obtain rfl := Option.some.inj hg
      exact ⟨_, rfl, hb⟩
    | succ i => exact ih hg

/-- The same for a batch that stands for powers. -/
theorem Batch.exists_getElem?_pow {us : List Bytes} {gs : List G} {n : ℕ}
    (h : List.Forall₂ (Encodes R) us (gs.map (· ^ n))) {i : ℕ} {g : G} (hg : gs[i]? = some g) :
    ∃ u, us[i]? = some u ∧ Encodes R u (g ^ n) :=
  exists_getElem? h (by rw [List.getElem?_map, hg, Option.map_some])

/-- At every position of a batch there is a string, and in the list the element it stands
    for. -/
theorem Batch.exists_encodes_of_lt {elements : List Bytes} {gs : List G}
    (h : List.Forall₂ (Encodes R) elements gs) {i : ℕ} (hi : i < elements.length) :
    ∃ bytes g, elements[i]? = some bytes ∧ gs[i]? = some g ∧ Encodes R bytes g := by
  have hlt : i < gs.length := h.length_eq ▸ hi
  have hg : gs[i]? = some gs[i] := List.getElem?_eq_getElem hlt
  obtain ⟨bytes, hbytes, hencodes⟩ := exists_getElem? h hg
  exact ⟨bytes, _, hbytes, hg, hencodes⟩

variable [Fact C.order.Prime]

/-- Two powers of an element that was read have one string if and only if the exponents
    are the same. -/
theorem Encodes.pow_eq_iff (hR : R.IsCanonical) {x u v : Bytes} {g : G} (hx : Encodes R x g)
    {d e : ZMod C.order} (hu : Encodes R u (g ^ d.val)) (hv : Encodes R v (g ^ e.val)) :
    u = v ↔ d = e := by
  rw [hu.eq_iff hR hv]
  obtain ⟨z, hz, rfl⟩ := hx
  rw [R.pow_eq_pow_iff (R.sound_of_decode hz) (R.value_ne_one_of_decode hz),
    ZMod.natCast_zmod_val, ZMod.natCast_zmod_val]

namespace Batch

variable {X us vs : List Bytes} {gs : List G} {d e : ZMod C.order} {i j : ℕ}

/-- Two powers of a batch agree at a position if and only if the exponents are the same. -/
theorem getElem?_eq_iff_exponent (hR : R.IsCanonical) (hX : List.Forall₂ (Encodes R) X gs)
    (hus : List.Forall₂ (Encodes R) us (gs.map (· ^ d.val)))
    (hvs : List.Forall₂ (Encodes R) vs (gs.map (· ^ e.val))) (hi : i < X.length) :
    us[i]? = vs[i]? ↔ d = e := by
  obtain ⟨x, g, _, hg, hx⟩ := exists_encodes_of_lt hX hi
  obtain ⟨u, hu, hug⟩ := exists_getElem?_pow hus hg
  obtain ⟨v, hv, hvg⟩ := exists_getElem?_pow hvs hg
  rw [hu, hv, Option.some.injEq, hx.pow_eq_iff hR hug hvg]

/-- A power of a batch is the same at two positions if and only if the batch is. -/
theorem getElem?_eq_iff_position (hR : R.IsCanonical) (hX : List.Forall₂ (Encodes R) X gs)
    (hus : List.Forall₂ (Encodes R) us (gs.map (· ^ d.val))) (hd : d ≠ 0) (hi : i < X.length)
    (hj : j < X.length) : us[i]? = us[j]? ↔ X[i]? = X[j]? := by
  obtain ⟨x, g, hx, hg, hxg⟩ := exists_encodes_of_lt hX hi
  obtain ⟨y, h, hy, hh, hyh⟩ := exists_encodes_of_lt hX hj
  obtain ⟨u, hu, hug⟩ := exists_getElem?_pow hus hg
  obtain ⟨v, hv, hvh⟩ := exists_getElem?_pow hus hh
  have hne : ((d.val : ℕ) : ZMod C.order) ≠ 0 := by rwa [ZMod.natCast_zmod_val]
  rw [hu, hv, hx, hy, Option.some.injEq, Option.some.injEq,
    encodes_pow_eq_iff hR hne ⟨g, hug, hxg⟩ ⟨h, hvh, hyh⟩]

end Batch

end Canonical

namespace Operation

variable {C : Suite} {a b : Bytes} {ka kb : Key C} {X : List Bytes}

/-- Two accepted keys in one operation: its results agree at a position if and only if the
    keys are the same, and one of them is the same at two positions if and only if the batch
    is. -/
theorem compared_of_isLawful (hC : C.IsLawful) (op : Operation) (ha : Key.load C a = .ok ka)
    (hb : Key.load C b = .ok kb) (hX : Batch.Decodes C X) :
    ∃ aX bX, run C (⟨a, X⟩ : Request op) = .ok ⟨aX⟩ ∧ run C (⟨b, X⟩ : Request op) = .ok ⟨bX⟩ ∧
      aX.length = X.length ∧ bX.length = X.length ∧
      (∀ i < X.length, (aX[i]? = bX[i]? ↔ a = b)) ∧
      ∀ i < X.length, ∀ j < X.length, (aX[i]? = aX[j]? ↔ X[i]? = X[j]?) := by
  have := Fact.mk hC.prime_order
  have := Fact.mk hC.two_lt_order
  obtain ⟨G, _, R, hR⟩ := hC.exists_reading
  obtain ⟨gs, hgs⟩ := Batch.exists_encodes R hX
  obtain ⟨aX, hrun, haX⟩ := run_of_encodes hR (⟨a, X⟩ : Request op) ha hgs
  obtain ⟨bX, hrun', hbX⟩ := run_of_encodes hR (⟨b, X⟩ : Request op) hb hgs
  refine ⟨aX, bX, hrun, hrun', ?_, ?_, fun i hi => ?_, fun i hi j hj => ?_⟩
  · rw [haX.length_eq, List.length_map, hgs.length_eq]
  · rw [hbX.length_eq, List.length_map, hgs.length_eq]
  · rw [Batch.getElem?_eq_iff_exponent hR hgs haX hbX hi, Key.factor_eq_iff ha hb]
  · exact Batch.getElem?_eq_iff_position hR hgs haX (ka.factor_ne_zero _) hi hj

/-- An accepted key strips the layer of another one from a position if and only if the keys
    are the same. -/
theorem stripped_of_isLawful (hC : C.IsLawful) (ha : Key.load C a = .ok ka)
    (hb : Key.load C b = .ok kb) (hX : Batch.Decodes C X) :
    ∃ aX Z, run C (⟨a, X⟩ : Request .apply) = .ok ⟨aX⟩ ∧
      run C (⟨b, aX⟩ : Request .decrypt) = .ok ⟨Z⟩ ∧ Z.length = X.length ∧
      ∀ i < X.length, (Z[i]? = X[i]? ↔ a = b) := by
  have := Fact.mk hC.prime_order
  have := Fact.mk hC.two_lt_order
  have : Fact (1 < C.order) := ⟨hC.prime_order.one_lt⟩
  obtain ⟨G, _, R, hR⟩ := hC.exists_reading
  obtain ⟨gs, hgs⟩ := Batch.exists_encodes R hX
  obtain ⟨aX, hrun, haX⟩ := run_of_encodes hR (⟨a, X⟩ : Request .apply) ha hgs
  obtain ⟨Z, hrun', hZ⟩ := run_of_encodes hR (⟨b, aX⟩ : Request .decrypt) hb haX
  rw [Batch.map_pow_map_of_encodes hgs] at hZ
  -- The batch itself stands for the powers to the exponent one.
  have hone : List.Forall₂ (Encodes R) X (gs.map (· ^ (1 : ZMod C.order).val)) := by
    simpa only [ZMod.val_one, pow_one, List.map_id'] using hgs
  refine ⟨aX, Z, hrun, hrun', ?_, fun i hi => ?_⟩
  · rw [hZ.length_eq, List.length_map, hgs.length_eq]
  · rw [Batch.getElem?_eq_iff_exponent hR hgs hZ hone hi, ← Key.factor_eq_iff ha hb .forward]
    exact mul_inv_eq_one₀ kb.toZMod_scalar_ne_zero

end Operation

/-- Keys act faithfully and freely. With two accepted keys the results of an operation agree
    at a position if and only if the keys are the same, and so does what is stripped of a
    layer with the batch that was below it; and a layer, added or stripped, neither merges
    nor separates positions. -/
theorem Context.action_faithful (c : Context) {a b : Bytes} {ka kb : Key c.suite}
    (ha : Key.load c.suite a = .ok ka) (hb : Key.load c.suite b = .ok kb) {X : List Bytes}
    (hX : Batch.Decodes c.suite X) :
    (∀ op : Operation, ∃ aX bX, Operation.run c.suite (⟨a, X⟩ : Request op) = .ok ⟨aX⟩ ∧
      Operation.run c.suite (⟨b, X⟩ : Request op) = .ok ⟨bX⟩ ∧
      aX.length = X.length ∧ bX.length = X.length ∧
      (∀ i < X.length, (aX[i]? = bX[i]? ↔ a = b)) ∧
      ∀ i < X.length, ∀ j < X.length, (aX[i]? = aX[j]? ↔ X[i]? = X[j]?)) ∧
    ∃ aX Z, Operation.run c.suite (⟨a, X⟩ : Request .apply) = .ok ⟨aX⟩ ∧
      Operation.run c.suite (⟨b, aX⟩ : Request .decrypt) = .ok ⟨Z⟩ ∧ Z.length = X.length ∧
      ∀ i < X.length, (Z[i]? = X[i]? ↔ a = b) :=
  ⟨fun op => Operation.compared_of_isLawful c.isLawful op ha hb hX,
    Operation.stripped_of_isLawful c.isLawful ha hb hX⟩

/-- The keys three and five, on a batch with a residue that occurs twice: the wrong key
    strips the layer nowhere. -/
theorem Context.action_faithful_wrong_key :
    ∃ aX Z, Operation.run toy.suite (⟨[0, 3], [[0, 4], [0, 9], [0, 4]]⟩ : Request .apply) =
        .ok ⟨aX⟩ ∧
      Operation.run toy.suite (⟨[0, 5], aX⟩ : Request .decrypt) = .ok ⟨Z⟩ ∧
      Z[0]? ≠ some [0, 4] ∧ Z[1]? ≠ some [0, 9] ∧ Z[2]? ≠ some [0, 4] := by
  have ha : Key.load toy.suite [0, 3] = .ok ⟨(3 : Scalar 1019), by decide⟩ := rfl
  have hb : Key.load toy.suite [0, 5] = .ok ⟨(5 : Scalar 1019), by decide⟩ := rfl
  have hX : Batch.Decodes toy.suite [[0, 4], [0, 9], [0, 4]] :=
    Batch.decodes_iff.2 ⟨[⟨4⟩, ⟨9⟩, ⟨4⟩], .cons rfl (.cons rfl (.cons rfl .nil))⟩
  obtain ⟨aX, Z, haX, hZ, _, hiff⟩ := (action_faithful toy ha hb hX).2
  refine ⟨aX, Z, haX, hZ, (hiff 0 ?_).not.2 ?_, (hiff 1 ?_).not.2 ?_, (hiff 2 ?_).not.2 ?_⟩
  all_goals decide

end PrivateMatching
