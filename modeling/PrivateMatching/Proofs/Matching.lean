import PrivateMatching.Context
import PrivateMatching.Proofs.Operation

/-!
# Matching is exact

Two parties apply a layer each to their own batch, and re-apply one to the batch
of the other. In a group of prime order all four operations succeed, and the
results are equal where the batches were (`Operation.matched_of_isLawful`): both
layers together are one power, which tells elements apart.
-/

namespace PrivateMatching

namespace Batch

/-- The matches of a string depend only on which strings it is equal to. -/
theorem matches_congr {s : Bytes → Bytes → Prop} {u x : Bytes}
    (h : ∀ v y, s v y → (u = v ↔ x = y)) {vs ys : List Bytes} (hvs : List.Forall₂ s vs ys)
    (i n : ℕ) :
    (vs.zipIdx n).filterMap (fun (v, j) => if u = v then some (i, j) else none) =
      (ys.zipIdx n).filterMap fun (y, j) => if x = y then some (i, j) else none := by
  induction hvs generalizing n with
  | nil => rfl
  | cons hvy _ ih => simp only [List.zipIdx_cons, List.filterMap_cons, ih, h _ _ hvy]

/-- The match list depends only on which strings are equal. -/
theorem matchList_congr {r s : Bytes → Bytes → Prop}
    (h : ∀ u x v y, r u x → s v y → (u = v ↔ x = y)) {us xs vs ys : List Bytes}
    (hus : List.Forall₂ r us xs) (hvs : List.Forall₂ s vs ys) :
    matchList us vs = matchList xs ys := by
  -- The positions are counted from any number, for the induction on the first batch.
  have hfrom : ∀ n,
      (us.zipIdx n).flatMap (fun (u, i) =>
        vs.zipIdx.filterMap fun (v, j) => if u = v then some (i, j) else none) =
      (xs.zipIdx n).flatMap (fun (x, i) =>
        ys.zipIdx.filterMap fun (y, j) => if x = y then some (i, j) else none) := by
    intro n
    induction hus generalizing n with
    | nil => rfl
    | cons hux _ ih =>
      rw [List.zipIdx_cons, List.zipIdx_cons, List.flatMap_cons, List.flatMap_cons, ih]
      exact congrArg (· ++ _) (matches_congr (fun v y => h _ _ v y hux) hvs n 0)
  exact hfrom 0

/-- The match list holds the pairs of positions of equal strings. -/
theorem mem_matchList {xs ys : List Bytes} {i j : ℕ} :
    (i, j) ∈ matchList xs ys ↔ ∃ bytes, xs[i]? = some bytes ∧ ys[j]? = some bytes := by
  simp only [matchList, List.mem_flatMap, List.mem_filterMap, Prod.exists,
    List.mem_zipIdx_iff_getElem?]
  constructor
  · rintro ⟨x, i', hx, y, j', hy, hpair⟩
    split at hpair
    · rename_i hxy
      obtain ⟨rfl, rfl⟩ := Prod.mk.inj (Option.some.inj hpair)
      exact ⟨x, hx, hxy ▸ hy⟩
    · cases hpair
  · rintro ⟨bytes, hx, hy⟩
    exact ⟨bytes, i, hx, bytes, j, hy, if_pos rfl⟩

/-- Where the first batch has a string, the match list says if the second has it
    too. -/
theorem mem_matchList_iff {xs ys : List Bytes} {i j : ℕ} (hi : i < xs.length) :
    (i, j) ∈ matchList xs ys ↔ xs[i]? = ys[j]? := by
  rw [mem_matchList, List.getElem?_eq_getElem hi]
  constructor
  · rintro ⟨bytes, hx, hy⟩
    rw [hx, hy]
  · intro h
    exact ⟨xs[i], rfl, h.symm⟩

end Batch

section Canonical

variable {C : Suite} {G : Type*} [CommGroup G] {R : C.Reading G}

/-- Batches that stand for powers of a list and for the list are related through
    its elements. -/
theorem forall₂_encodes {n : ℕ} {us xs : List Bytes} {gs : List G}
    (hus : List.Forall₂ (Encodes R) us (gs.map (· ^ n))) (hxs : List.Forall₂ (Encodes R) xs gs) :
    List.Forall₂ (fun u x => ∃ g, Encodes R u (g ^ n) ∧ Encodes R x g) us xs := by
  rw [List.forall₂_map_right_iff] at hus
  induction hus generalizing xs with
  | nil =>
    cases hxs
    exact .nil
  | cons hu _ ih =>
    rcases hxs with _ | ⟨hx, hxs⟩
    exact .cons ⟨_, hu, hx⟩ (ih hxs)

variable [Fact C.order.Prime]

/-- Strings of powers are equal if and only if the strings of the elements are. -/
theorem encodes_pow_eq_iff (hR : R.IsCanonical) {n : ℕ} (hn : (n : ZMod C.order) ≠ 0)
    {u x v y : Bytes} (hux : ∃ g, Encodes R u (g ^ n) ∧ Encodes R x g)
    (hvy : ∃ g, Encodes R v (g ^ n) ∧ Encodes R y g) : u = v ↔ x = y := by
  obtain ⟨_, hu, w, hw, rfl⟩ := hux
  obtain ⟨_, hv, z, hz, rfl⟩ := hvy
  rw [hu.eq_iff hR hv, Encodes.eq_iff hR ⟨w, hw, rfl⟩ ⟨z, hz, rfl⟩]
  constructor
  · exact R.pow_injective (R.sound_of_decode hw) (R.sound_of_decode hz) hn
  · intro h
    rw [h]

/-- Powers of two batches for one exponent match where the batches match. -/
theorem matchList_of_encodes_pow (hR : R.IsCanonical) {n : ℕ} (hn : (n : ZMod C.order) ≠ 0)
    {us xs vs ys : List Bytes} {gs hs : List G} (hxs : List.Forall₂ (Encodes R) xs gs)
    (hus : List.Forall₂ (Encodes R) us (gs.map (· ^ n))) (hys : List.Forall₂ (Encodes R) ys hs)
    (hvs : List.Forall₂ (Encodes R) vs (hs.map (· ^ n))) :
    Batch.matchList us vs = Batch.matchList xs ys :=
  Batch.matchList_congr (fun _ _ _ _ => encodes_pow_eq_iff hR hn) (forall₂_encodes hus hxs)
    (forall₂_encodes hvs hys)

end Canonical

namespace Operation

variable {C : Suite} {a b : Bytes} {ka kb : Key C}

/-- The layers of two keys, one after the other. -/
theorem run_twice [Fact C.order.Prime] [Fact (2 < C.order)] {G : Type*} [CommGroup G]
    {R : C.Reading G} (hR : R.IsCanonical) (ha : Key.load C a = .ok ka)
    (hb : Key.load C b = .ok kb) {X : List Bytes} {gs : List G}
    (hX : List.Forall₂ (Encodes R) X gs) :
    ∃ aX baX, run C (⟨a, X⟩ : Request .apply) = .ok ⟨aX⟩ ∧
      run C (⟨b, aX⟩ : Request .reapply) = .ok ⟨baX⟩ ∧
      List.Forall₂ (Encodes R) baX (gs.map (· ^ (ka.scalar.val * kb.scalar.val))) := by
  obtain ⟨aX, hrun, haX⟩ := run_of_encodes hR (⟨a, X⟩ : Request .apply) ha hX
  obtain ⟨baX, hrun', hbaX⟩ := run_of_encodes hR (⟨b, aX⟩ : Request .reapply) hb haX
  have hfactor : ∀ k : Key C, (k.factor .forward).val = k.scalar.val := fun k =>
    Modular.val_toZMod k.scalar
  have hpow : ∀ g : G, (g ^ ka.scalar.val) ^ kb.scalar.val = g ^ (ka.scalar.val * kb.scalar.val) :=
    fun g => (pow_mul g _ _).symm
  refine ⟨aX, baX, hrun, hrun', ?_⟩
  simpa only [direction, List.map_map, Function.comp_def, hfactor, hpow] using hbaX

/-- Matching is exact in a group of prime order. -/
theorem matched_of_isLawful (hC : C.IsLawful) (ha : Key.load C a = .ok ka)
    (hb : Key.load C b = .ok kb) {X Y : List Bytes} (hX : Batch.Decodes C X)
    (hY : Batch.Decodes C Y) :
    ∃ aX baX bY abY, run C (⟨a, X⟩ : Request .apply) = .ok ⟨aX⟩ ∧
      run C (⟨b, aX⟩ : Request .reapply) = .ok ⟨baX⟩ ∧
      run C (⟨b, Y⟩ : Request .apply) = .ok ⟨bY⟩ ∧
      run C (⟨a, bY⟩ : Request .reapply) = .ok ⟨abY⟩ ∧
      baX.length = X.length ∧ abY.length = Y.length ∧
      Batch.matchList baX abY = Batch.matchList X Y := by
  have := Fact.mk hC.prime_order
  have := Fact.mk hC.two_lt_order
  obtain ⟨G, _, R, hR⟩ := hC.exists_reading
  obtain ⟨gs, hgs⟩ := Batch.exists_encodes R hX
  obtain ⟨hs, hhs⟩ := Batch.exists_encodes R hY
  obtain ⟨aX, baX, haX, hbaX, hxs⟩ := run_twice hR ha hb hgs
  obtain ⟨bY, abY, hbY, habY, hys⟩ := run_twice hR hb ha hhs
  rw [mul_comm] at hys
  have hn : ((ka.scalar.val * kb.scalar.val : ℕ) : ZMod C.order) ≠ 0 := by
    rw [Nat.cast_mul]
    exact mul_ne_zero ka.toZMod_scalar_ne_zero kb.toZMod_scalar_ne_zero
  -- Both results are powers of the batches for one exponent.
  exact ⟨aX, baX, bY, abY, haX, hbaX, hbY, habY, (forall₂_encodes hxs hgs).length_eq,
    (forall₂_encodes hys hhs).length_eq, matchList_of_encodes_pow hR hn hgs hxs hhs hys⟩

end Operation

end PrivateMatching
