import Mathlib.Algebra.BigOperators.Group.List.Basic
import PrivateMatching.Proofs.Operation

/-!
# Runs of operations

A run is any number of operations, each with an accepted key, on the batch that
the one before it returned (`Operation.runAll`). In a group of prime order it
comes to one exponent, the product of the exponents of its steps
(`Operation.netExponent`): the run succeeds, and returns what one application of
the key of that exponent returns (`Operation.runAll_of_isLawful`). So the order
of the steps does not matter, and layers that were all stripped leave the batch
as it was.
-/

namespace PrivateMatching

/-- An operation with a key that is accepted. -/
structure Operation.Step (C : Suite) where
  /-- The operation. -/
  op : Operation
  /-- The encoded key. -/
  secret : Bytes
  /-- The key that the encoding is loaded as. -/
  key : Key C
  accepted : Key.load C secret = .ok key

namespace Operation

variable {C : Suite}

/-- Runs steps in order, each on the batch that the previous one returned; the
    first failure ends the run. -/
def runAll (C : Suite) : List (Step C) → List Bytes → Except Failure (List Bytes)
  | [], elements => .ok elements
  | step :: steps, elements =>
    match run C (⟨step.secret, elements⟩ : Request step.op) with
    | .error failure => .error failure
    | .ok response => runAll C steps response.elements

/-- The exponent that a step raises elements to, modulo the order. -/
def Step.exponent (step : Step C) : ZMod C.order := step.key.factor step.op.direction

/-- The product of the exponents of a run. -/
def netExponent (steps : List (Step C)) : ZMod C.order := (steps.map Step.exponent).prod

@[simp] theorem netExponent_nil : netExponent ([] : List (Step C)) = 1 := rfl

@[simp] theorem netExponent_cons (step : Step C) (steps : List (Step C)) :
    netExponent (step :: steps) = step.exponent * netExponent steps := List.prod_cons

/-- The order of the steps does not change their exponent. -/
theorem netExponent_perm {steps steps' : List (Step C)} (h : steps.Perm steps') :
    netExponent steps = netExponent steps' := (h.map _).prod_eq

section Canonical

variable [Fact C.order.Prime]

/-- Every step can be stripped again, and so can a run. -/
theorem netExponent_ne_zero (steps : List (Step C)) : netExponent steps ≠ 0 := by
  induction steps with
  | nil => exact one_ne_zero
  | cons step steps ih =>
    rw [netExponent_cons]
    exact mul_ne_zero (step.key.factor_ne_zero _) ih

variable [Fact (2 < C.order)] {G : Type*} [CommGroup G] {R : C.Reading G}

/-- A run succeeds, and raises the elements that a batch stands for to its
    exponent. -/
theorem runAll_of_encodes (hR : R.IsCanonical) (steps : List (Step C)) {X : List Bytes}
    {gs : List G} (hX : List.Forall₂ (Encodes R) X gs) :
    ∃ Z, runAll C steps X = .ok Z ∧
      List.Forall₂ (Encodes R) Z (gs.map (· ^ (netExponent steps).val)) := by
  induction steps generalizing X gs with
  | nil =>
    have : Fact (1 < C.order) := ⟨Nat.lt_of_succ_lt Fact.out⟩
    refine ⟨X, rfl, ?_⟩
    simpa only [netExponent_nil, ZMod.val_one, pow_one, List.map_id'] using hX
  | cons step steps ih =>
    -- The batch that a step returns stands for powers, and is read by the next.
    obtain ⟨Y, hrun, hY⟩ := run_of_encodes hR (⟨step.secret, X⟩ : Request step.op) step.accepted hX
    obtain ⟨Z, hrest, hZ⟩ := ih hY
    refine ⟨Z, by simp only [runAll, hrun, hrest], ?_⟩
    -- The elements are roots of one to the order, so exponents multiply modulo it.
    rwa [Batch.map_pow_map_of_encodes hX, ← Step.exponent, ← netExponent_cons] at hZ

end Canonical

/-- In a group of prime order, a run comes to one application of the key of its
    exponent. -/
theorem runAll_of_isLawful (hC : C.IsLawful) (steps : List (Step C)) {X : List Bytes}
    (hX : Batch.Decodes C X) :
    ∃ (key : Key C) (Z : List Bytes), Modular.toZMod key.scalar = netExponent steps ∧
      Key.load C key.toBytes = .ok key ∧ runAll C steps X = .ok Z ∧
      run C (⟨key.toBytes, X⟩ : Request .apply) = .ok ⟨Z⟩ ∧
      (∀ steps', steps'.Perm steps → runAll C steps' X = .ok Z) ∧
      (netExponent steps = 1 → Z = X) := by
  have := Fact.mk hC.prime_order
  have := Fact.mk hC.two_lt_order
  obtain ⟨G, _, R, hR⟩ := hC.exists_reading
  obtain ⟨gs, hgs⟩ := Batch.exists_encodes R hX
  obtain ⟨Z, hrun, hZ⟩ := runAll_of_encodes hR steps hgs
  -- Batches that stand for the same elements are the same.
  have hunique : ∀ Z',
      List.Forall₂ (Encodes R) Z' (gs.map (· ^ (netExponent steps).val)) → Z' = Z := by
    intro Z' hZ'
    exact Batch.encodes_unique hR hZ' hZ
  let key := Key.ofZMod (netExponent steps) (netExponent_ne_zero steps)
  have hkey : key.factor .forward = netExponent steps := Key.factor_ofZMod _ _
  refine ⟨key, Z, hkey, Key.load_toBytes key, hrun, ?_, fun steps' hperm => ?_, fun hone => ?_⟩
  · obtain ⟨Z', hrun', hZ'⟩ :=
      run_of_encodes hR (⟨key.toBytes, X⟩ : Request .apply) (Key.load_toBytes key) hgs
    rw [direction, hkey] at hZ'
    rw [hrun', hunique Z' hZ']
  · obtain ⟨Z', hrun', hZ'⟩ := runAll_of_encodes hR steps' hgs
    rw [netExponent_perm hperm] at hZ'
    rw [hrun', hunique Z' hZ']
  · have : Fact (1 < C.order) := ⟨hC.prime_order.one_lt⟩
    refine (hunique X ?_).symm
    simpa only [hone, ZMod.val_one, pow_one, List.map_id'] using hgs

end Operation

end PrivateMatching
