import PrivateMatching.Context
import PrivateMatching.Proofs.Layers
import PrivateMatching.Proofs.Matching
import PrivateMatching.Proofs.P256.Reading
import PrivateMatching.Proofs.QuadraticResidue.Reading
import PrivateMatching.Proofs.Ristretto.Reading

/-!
# The guarantees of the contexts

The suite of every context is a group of prime order with canonical encodings
(`Context.isLawful`), which is proved of the arithmetic of the context, with
nothing assumed. So for every context

* an operation has one of three outcomes, whatever bytes it is given
  (`Context.run_exact`);
* doubly encrypted batches match where the batches match, and nowhere else
  (`Context.matching_exact`);
* a run of operations comes to one application of the key of its exponent
  (`Context.runAll_eq_run`).
-/

namespace PrivateMatching

theorem QuadraticResidue.suite_isLawful : suite.IsLawful where
  prime_order := Fact.out
  two_lt_order := Fact.out
  exists_reading := ⟨_, _, reading, reading_isCanonical⟩

theorem P256.suite_isLawful : suite.IsLawful where
  prime_order := Fact.out
  two_lt_order := Fact.out
  exists_reading := ⟨_, _, reading, reading_isCanonical⟩

theorem Ristretto.suite_isLawful : suite.IsLawful where
  prime_order := Fact.out
  two_lt_order := Fact.out
  exists_reading := ⟨_, _, reading, reading_isCanonical⟩

namespace Context

/-- The suite of a context is a group of prime order. -/
theorem isLawful (c : Context) : c.suite.IsLawful := by
  cases c with
  | p256 => exact P256.suite_isLawful
  | ristretto255 => exact Ristretto.suite_isLawful
  | toy => exact QuadraticResidue.suite_isLawful

/-- Matching is exact: both parties' layers on both batches succeed, and two of the
    results are equal if and only if the strings behind them are. -/
theorem matching_exact (c : Context) {a b : Bytes} {ka kb : Key c.suite}
    (ha : Key.load c.suite a = .ok ka) (hb : Key.load c.suite b = .ok kb) {X Y : List Bytes}
    (hX : Batch.Decodes c.suite X) (hY : Batch.Decodes c.suite Y) :
    ∃ aX baX bY abY, Operation.run c.suite (⟨a, X⟩ : Request .apply) = .ok ⟨aX⟩ ∧
      Operation.run c.suite (⟨b, aX⟩ : Request .reapply) = .ok ⟨baX⟩ ∧
      Operation.run c.suite (⟨b, Y⟩ : Request .apply) = .ok ⟨bY⟩ ∧
      Operation.run c.suite (⟨a, bY⟩ : Request .reapply) = .ok ⟨abY⟩ ∧
      baX.length = X.length ∧ abY.length = Y.length ∧
      (∀ i < X.length, ∀ j < Y.length, (baX[i]? = abY[j]? ↔ X[i]? = Y[j]?)) ∧
      Batch.matchList baX abY = Batch.matchList X Y := by
  obtain ⟨aX, baX, bY, abY, haX, hbaX, hbY, habY, hlenX, hlenY, hlist⟩ :=
    Operation.matched_of_isLawful c.isLawful ha hb hX hY
  refine ⟨aX, baX, bY, abY, haX, hbaX, hbY, habY, hlenX, hlenY, ?_, hlist⟩
  intro i hi j _
  rw [← Batch.mem_matchList_iff (hlenX ▸ hi), ← Batch.mem_matchList_iff hi, hlist]

/-- The keys three and five, on batches that have the residues nine and sixteen in
    common. -/
theorem matching_exact_common : ∃ aX baX bY abY,
    Operation.run toy.suite (⟨[0, 3], [[0, 4], [0, 9], [0, 16]]⟩ : Request .apply) = .ok ⟨aX⟩ ∧
      Operation.run toy.suite (⟨[0, 5], aX⟩ : Request .reapply) = .ok ⟨baX⟩ ∧
      Operation.run toy.suite (⟨[0, 5], [[0, 16], [0, 9]]⟩ : Request .apply) = .ok ⟨bY⟩ ∧
      Operation.run toy.suite (⟨[0, 3], bY⟩ : Request .reapply) = .ok ⟨abY⟩ ∧
      Batch.matchList baX abY = [(1, 1), (2, 0)] := by
  have ha : Key.load toy.suite [0, 3] = .ok ⟨(3 : Scalar 1019), by decide⟩ := rfl
  have hb : Key.load toy.suite [0, 5] = .ok ⟨(5 : Scalar 1019), by decide⟩ := rfl
  have hX : Batch.Decodes toy.suite [[0, 4], [0, 9], [0, 16]] :=
    Batch.decodes_iff.2 ⟨[⟨4⟩, ⟨9⟩, ⟨16⟩], .cons rfl (.cons rfl (.cons rfl .nil))⟩
  have hY : Batch.Decodes toy.suite [[0, 16], [0, 9]] :=
    Batch.decodes_iff.2 ⟨[⟨16⟩, ⟨9⟩], .cons rfl (.cons rfl .nil)⟩
  obtain ⟨aX, baX, bY, abY, haX, hbaX, hbY, habY, _, _, _, hlist⟩ := matching_exact toy ha hb hX hY
  exact ⟨aX, baX, bY, abY, haX, hbaX, hbY, habY, hlist.trans (by decide)⟩

/-- A run of operations with accepted keys succeeds, and returns what one
    application of the key of its exponent returns; so the order of its steps does
    not matter, and it returns the batch if the exponent is one. -/
theorem runAll_eq_run (c : Context) (steps : List (Operation.Step c.suite)) {X : List Bytes}
    (hX : Batch.Decodes c.suite X) :
    ∃ (key : Key c.suite) (Z : List Bytes),
      Modular.toZMod key.scalar = Operation.netExponent steps ∧
      (1 ≤ key.scalar.val ∧ key.scalar.val ≤ c.suite.order - 1) ∧
      Key.load c.suite key.toBytes = .ok key ∧ Operation.runAll c.suite steps X = .ok Z ∧
      Operation.run c.suite (⟨key.toBytes, X⟩ : Request .apply) = .ok ⟨Z⟩ ∧
      (∀ steps', steps'.Perm steps → Operation.runAll c.suite steps' X = .ok Z) ∧
      (Operation.netExponent steps = 1 → Z = X) := by
  obtain ⟨key, Z, hkey, hrest⟩ := Operation.runAll_of_isLawful c.isLawful steps hX
  have hpos : 1 ≤ key.scalar.val := Nat.one_le_iff_ne_zero.2 key.ne_zero
  have hle : key.scalar.val ≤ c.suite.order - 1 := Nat.le_sub_one_of_lt key.scalar.isLt
  exact ⟨key, Z, hkey, ⟨hpos, hle⟩, hrest⟩

/-- The layers of the keys three and five, the first one stripped before the
    other. -/
theorem runAll_eq_run_stripped :
    Operation.runAll toy.suite
      [⟨.apply, [0, 3], ⟨(3 : Scalar 1019), by decide⟩, rfl⟩,
        ⟨.reapply, [0, 5], ⟨(5 : Scalar 1019), by decide⟩, rfl⟩,
        ⟨.decrypt, [0, 3], ⟨(3 : Scalar 1019), by decide⟩, rfl⟩,
        ⟨.decrypt, [0, 5], ⟨(5 : Scalar 1019), by decide⟩, rfl⟩]
      [[0, 4], [0, 9], [0, 16]] = .ok [[0, 4], [0, 9], [0, 16]] := by
  have hX : Batch.Decodes toy.suite [[0, 4], [0, 9], [0, 16]] :=
    Batch.decodes_iff.2 ⟨[⟨4⟩, ⟨9⟩, ⟨16⟩], .cons rfl (.cons rfl (.cons rfl .nil))⟩
  obtain ⟨_, Z, _, _, _, hrun, _, _, hone⟩ := runAll_eq_run toy _ hX
  rw [hrun, hone]
  decide +kernel

end Context

end PrivateMatching
