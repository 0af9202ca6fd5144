import PrivateMatching.Operation.Run
import PrivateMatching.Proofs.Batch

/-!
# What operations answer

An operation has one of three outcomes (`Operation.Outcome`): the key is refused,
whatever the batch; or the batch has a first fault; or the elements of the batch
are raised to the exponent of the key, in place. In a group of prime order an
operation answers what its outcome says (`Operation.run_eq_iff_outcome`), as no other
failure can occur.
-/

namespace PrivateMatching

namespace Operation

variable {C : Suite} {op : Operation} {request : Request op}

/-- What an operation may answer to a request. -/
inductive Outcome (C : Suite) {op : Operation} (request : Request op) :
    Except Failure (Response op) → Prop
  /-- The key is not accepted. -/
  | keyRejected {fault : KeyFault} (hkey : Key.load C request.key = .error fault) :
    Outcome C request (.error (.invalidKey fault))
  /-- The key is accepted, and a position is the least one that does not decode. -/
  | elementRejected {key : Key C} {position : ℕ} {reason : EncodingFault}
    (hkey : Key.load C request.key = .ok key)
    (hfault : Batch.FirstFault C request.elements position reason) :
    Outcome C request (.error (.invalidEncoding position reason))
  /-- The key is accepted, and all positions decode. -/
  | processed {key : Key C} {xs : List C.Element} {e : Scalar C.order}
    (hkey : Key.load C request.key = .ok key)
    (hxs : List.Forall₂ (fun bytes x => C.decode bytes = .ok x) request.elements xs)
    (he : Modular.toZMod e = key.factor op.direction) :
    Outcome C request (.ok ⟨xs.map fun x => C.encode (C.exp x e)⟩)

/-- A key that is not accepted is all that an operation reports. -/
theorem run_of_load_error {fault : KeyFault} (h : Key.load C request.key = .error fault) :
    run C request = .error (.invalidKey fault) := by
  simp only [run, traced, process, h]
  rfl

/-- With an accepted key, an operation is the layer of the key on the batch. -/
theorem run_of_load {key : Key C} (h : Key.load C request.key = .ok key) :
    run C request = (Batch.apply key op.direction request.elements).map Response.mk := by
  simp only [run, traced, process, h]
  cases Batch.apply key op.direction request.elements with
  | ok output => rfl
  | error failure => cases failure <;> rfl

theorem run_eq_ok_iff {key : Key C} (h : Key.load C request.key = .ok key) {output : List Bytes} :
    run C request = .ok ⟨output⟩ ↔
      Batch.apply key op.direction request.elements = .ok output := by
  rw [run_of_load h]
  cases Batch.apply key op.direction request.elements <;> simp [Except.map]

theorem run_eq_error_iff {key : Key C} (h : Key.load C request.key = .ok key) {failure : Failure} :
    run C request = .error failure ↔
      Batch.apply key op.direction request.elements = .error failure := by
  rw [run_of_load h]
  cases Batch.apply key op.direction request.elements <;> simp [Except.map]

/-- The first fault of a batch is reported. -/
theorem run_of_firstFault {key : Key C} {position : ℕ} {reason : EncodingFault}
    (hkey : Key.load C request.key = .ok key)
    (hfault : Batch.FirstFault C request.elements position reason) :
    run C request = .error (.invalidEncoding position reason) := by
  rw [run_of_load hkey, Batch.apply_of_firstFault hfault]
  rfl

/-- Every request has an outcome. -/
theorem Outcome.exists (request : Request op) : ∃ r, Outcome C request r := by
  cases hkey : Key.load C request.key with
  | error fault => exact ⟨_, .keyRejected hkey⟩
  | ok key =>
    rcases Batch.decodes_or_firstFault C request.elements with hdecodes | ⟨_, _, hfault⟩
    · obtain ⟨xs, hxs⟩ := Batch.decodes_iff.1 hdecodes
      obtain ⟨e, he⟩ := Modular.toZMod_surjective (key.factor op.direction)
      exact ⟨_, .processed hkey hxs he⟩
    · exact ⟨_, .elementRejected hkey hfault⟩

section Lawful

variable (hC : C.IsLawful)
include hC

/-- A batch that decodes is processed. -/
theorem run_of_decode {key : Key C} {xs : List C.Element} {e : Scalar C.order}
    (hkey : Key.load C request.key = .ok key)
    (hxs : List.Forall₂ (fun bytes x => C.decode bytes = .ok x) request.elements xs)
    (he : Modular.toZMod e = key.factor op.direction) :
    run C request = .ok ⟨xs.map fun x => C.encode (C.exp x e)⟩ := by
  rw [run_of_load hkey, Batch.apply_of_isLawful hC key op.direction hxs he]
  rfl

theorem Outcome.run_eq {r : Except Failure (Response op)} (h : Outcome C request r) :
    run C request = r := by
  cases h with
  | keyRejected hkey => exact run_of_load_error hkey
  | elementRejected hkey hfault => exact run_of_firstFault hkey hfault
  | processed hkey hxs he => exact run_of_decode hC hkey hxs he

/-- An operation answers what its outcome says. -/
theorem run_eq_iff_outcome (request : Request op) (r : Except Failure (Response op)) :
    run C request = r ↔ Outcome C request r := by
  constructor
  · rintro rfl
    obtain ⟨r, hr⟩ := Outcome.exists request
    rwa [hr.run_eq hC]
  · exact Outcome.run_eq hC

end Lawful

/-- With an accepted key, an operation raises the elements that a batch stands for
    to the exponent of the key. -/
theorem run_of_encodes [Fact C.order.Prime] [Fact (2 < C.order)] {G : Type*} [CommGroup G]
    {R : C.Reading G} (hR : R.IsCanonical) (request : Request op) {key : Key C} {gs : List G}
    (hkey : Key.load C request.key = .ok key) (h : List.Forall₂ (Encodes R) request.elements gs) :
    ∃ output, run C request = .ok ⟨output⟩ ∧
      List.Forall₂ (Encodes R) output (gs.map (· ^ (key.factor op.direction).val)) := by
  obtain ⟨output, happly, houtput⟩ := Batch.apply_of_encodes hR key op.direction h
  exact ⟨output, by rw [run_of_load hkey, happly]; rfl, houtput⟩

end Operation

end PrivateMatching
