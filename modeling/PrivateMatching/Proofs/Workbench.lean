import PrivateMatching.Proofs.Batch
import PrivateMatching.Proofs.Reachable
import PrivateMatching.Workbench

/-!
# What workbenches make

The elements of a workbench come from its steps: they are given, hashed, or worked out from
elements and scalars under names (`Workbench.Step.Makes`). A step that fails keeps all values
(`Workbench.step_of_error`).

So what the operations of a suite keep, a workbench keeps: if it holds of the elements at the
start and of those that are given at hand, it holds of all that a run answers
(`Workbench.Values.Holds.run`). Membership in the group is such a thing. A workbench on members
never leaves the group, and each element that it answers is read back from its encoding, except
the identity (`Workbench.mem_and_readsBack_of_run`).
-/

namespace PrivateMatching

namespace Workbench

variable {C : Suite} {values : Values C} {s : Step C} {steps : List (Step C)} {x : C.Element}
  {P : C.Element → Prop}

namespace Values

@[simp] theorem element_eq_ok_iff {operand : Operand} {name : String} :
    values.element operand name = .ok x ↔ values.elements.get? name = some x := by
  rw [element]
  cases values.elements.get? name with
  | none => exact iff_of_false (by rintro ⟨⟩) (by rintro ⟨⟩)
  | some y => rw [Except.ok.injEq, Option.some.injEq]

@[simp] theorem scalar_eq_ok_iff {operand : Operand} {name : String} {a : Scalar C.order} :
    values.scalar operand name = .ok a ↔ values.scalars.get? name = some a := by
  rw [scalar]
  cases values.scalars.get? name with
  | none => exact iff_of_false (by rintro ⟨⟩) (by rintro ⟨⟩)
  | some b => rw [Except.ok.injEq, Option.some.injEq]

end Values

/-! ## Steps -/

/-- A step makes an element. -/
inductive Step.Makes (values : Values C) : Step C → C.Element → Prop
  /-- It is given. -/
  | element {value : ElementSource C} {target : String} {x : C.Element}
    (h : value.resolve = .ok x) : Makes values (.element value target) x
  /-- It is hashed. -/
  | hash {inputs tags : List Bytes} {target : String} {x : C.Element}
    (h : C.hash inputs tags = .ok x) : Makes values (.hash inputs tags target) x
  /-- It is the product of two elements. -/
  | mul {a b target : String} {x y : C.Element} (hx : values.elements.get? a = some x)
    (hy : values.elements.get? b = some y) : Makes values (.mul a b target) (C.mul x y)
  /-- It is an element raised to a scalar. -/
  | exp {a s target : String} {x : C.Element} {e : Scalar C.order}
    (hx : values.elements.get? a = some x) (he : values.scalars.get? s = some e) :
    Makes values (.exp a s target) (C.exp x e)
  /-- It is the generator raised to a scalar. -/
  | generatorExp {s target : String} {e : Scalar C.order}
    (he : values.scalars.get? s = some e) :
    Makes values (.generatorExp s target) (C.generatorExp e)

/-- The elements that a step answers are those that it makes. -/
theorem Step.answer_eq_element_iff : s.answer values = .ok (.element x) ↔ s.Makes values x := by
  constructor
  · intro h
    cases s with
    | element value target =>
      have hx : value.resolve = .ok x := by
        simpa [answer] using h
      exact .element hx
    | hash inputs tags target =>
      have hx : C.hash inputs tags = .ok x := by
        simpa [answer] using h
      exact .hash hx
    | mul a b target =>
      obtain ⟨y, hy, z, hz, rfl⟩ : ∃ y, values.elements.get? a = some y ∧
          ∃ z, values.elements.get? b = some z ∧ C.mul y z = x := by
        simpa [answer] using h
      exact .mul hy hz
    | exp a s target =>
      obtain ⟨y, hy, e, he, rfl⟩ : ∃ y, values.elements.get? a = some y ∧
          ∃ e, values.scalars.get? s = some e ∧ C.exp y e = x := by
        simpa [answer] using h
      exact .exp hy he
    | generatorExp s target =>
      obtain ⟨e, he, rfl⟩ : ∃ e, values.scalars.get? s = some e ∧ C.generatorExp e = x := by
        simpa [answer] using h
      exact .generatorExp he
    | invert a target =>
      -- The answer is a scalar, or that there is none.
      obtain ⟨e, _, h⟩ := bind_eq_ok_iff.1 h
      cases hinverse : e.inv? <;> simp [hinverse] at h
    | _ => simp [answer] at h
  · intro h
    cases h with
    | element h => simpa [answer] using h
    | hash h => simpa [answer] using h
    | mul hx hy => simp [answer, hx, hy]
    | exp hx he => simp [answer, hx, he]
    | generatorExp he => simp [answer, he]

/-- A step that fails keeps all values. -/
theorem step_of_error {refusal : Refusal} (h : (step values s).1 = .error refusal) :
    (step values s).2 = values := by
  rw [step] at h ⊢
  cases hanswer : s.answer values with
  | error cause => rfl
  | ok answer =>
    rw [hanswer] at h
    cases htarget : s.target? with
    | none => rfl
    | some target =>
      rw [htarget] at h
      cases h

/-! ## What is kept -/

/-- A property holds of all elements under names. -/
def Values.Holds (P : C.Element → Prop) (values : Values C) : Prop :=
  ∀ name x, values.elements.get? name = some x → P x

/-- A property holds of the element that a step gives at hand, if it does. -/
def Step.Gives (P : C.Element → Prop) (s : Step C) : Prop :=
  ∀ x target, s = .element (.given x) target → P x

theorem Step.Makes.holds (hP : C.Invariant P) (hvalues : values.Holds P) (hs : s.Gives P)
    (h : s.Makes values x) : P x := by
  cases h with
  | @element value target _ h =>
    cases value with
    | given y =>
      cases h
      exact hs _ _ rfl
    | encoded bytes => exact hP.decode _ _ h
  | hash h => exact hP.hash _ _ _ h
  | mul hx hy => exact hP.mul _ _ (hvalues _ _ hx) (hvalues _ _ hy)
  | exp hx _ => exact hP.exp _ _ (hvalues _ _ hx)
  | generatorExp _ => exact hP.exp _ _ hP.generator

namespace Values.Holds

theorem keep (hvalues : values.Holds P) {answer : Answer C}
    (hanswer : ∀ x, answer = .element x → P x) (target : String) :
    (values.keep target answer).Holds P := by
  cases answer with
  | element y =>
    intro name x hx
    rw [Values.keep, Store.get?_put] at hx
    split at hx
    · cases hx
      exact hanswer _ rfl
    · exact hvalues name x hx
  | _ => exact hvalues

/-- One step keeps what the operations keep. -/
theorem step (hP : C.Invariant P) (hvalues : values.Holds P) (hs : s.Gives P) :
    (∀ x, (Workbench.step values s).1 = .ok (.element x) → P x) ∧
      (Workbench.step values s).2.Holds P := by
  rw [Workbench.step]
  cases hanswer : s.answer values with
  | error refusal => exact ⟨by rintro _ ⟨⟩, hvalues⟩
  | ok answer =>
    have hmade : ∀ x, answer = .element x → P x := by
      rintro x rfl
      exact (Step.answer_eq_element_iff.1 hanswer).holds hP hvalues hs
    cases s.target? with
    | none => exact ⟨fun x hx => hmade x (Except.ok.inj hx), hvalues⟩
    | some target => exact ⟨fun x hx => hmade x (Except.ok.inj hx), hvalues.keep hmade target⟩

/-- A run keeps what the operations keep. -/
theorem run (hP : C.Invariant P) (hvalues : values.Holds P) (hsteps : ∀ s ∈ steps, s.Gives P) :
    ∀ x, .ok (.element x) ∈ Workbench.run values steps → P x := by
  induction steps generalizing values with
  | nil => exact fun _ hx => absurd hx List.not_mem_nil
  | cons s steps ih =>
    obtain ⟨hs, hrest⟩ := List.forall_mem_cons.1 hsteps
    obtain ⟨hanswer, hnext⟩ := hvalues.step hP hs
    intro x hx
    rcases List.mem_cons.1 hx with hx | hx
    · exact hanswer x hx.symm
    · exact ih hnext hrest x hx

end Values.Holds

/-- A workbench on members of a group answers members only, which are read back from their
    encodings. -/
theorem mem_and_readsBack_of_run :
    (∀ (values : Values QuadraticResidue.suite) (steps : List (Step QuadraticResidue.suite)),
      values.Holds QuadraticResidue.Residue.IsMember →
      (∀ s ∈ steps, s.Gives QuadraticResidue.Residue.IsMember) →
      ∀ x : QuadraticResidue.Residue, .ok (.element x) ∈ run values steps →
        x.IsMember ∧ QuadraticResidue.suite.ReadsBack x) ∧
    ∀ (values : Values P256.suite) (steps : List (Step P256.suite)),
      values.Holds P256.Point.IsMember → (∀ s ∈ steps, s.Gives P256.Point.IsMember) →
      ∀ p : P256.Point, .ok (.element p) ∈ run values steps →
        p.IsMember ∧ P256.suite.ReadsBack p := by
  constructor
  · intro values steps hvalues hsteps x hx
    have hsound : x.Sound := Values.Holds.run QuadraticResidue.sound_invariant
      (fun name x hx => (hvalues name x hx).sound)
      (fun s hs x target h => (hsteps s hs x target h).sound) x hx
    exact ⟨hsound.isMember, QuadraticResidue.Residue.readsBack_of_sound hsound⟩
  · intro values steps hvalues hsteps p hp
    have hcurve : p.isOnCurve = true := Values.Holds.run P256.isOnCurve_invariant
      (fun name p hp => P256.Point.isMember_iff.1 (hvalues name p hp))
      (fun s hs p target h => P256.Point.isMember_iff.1 (hsteps s hs p target h)) p hp
    exact ⟨P256.Point.isMember_of_isOnCurve hcurve, P256.Point.readsBack_of_isOnCurve hcurve⟩

end Workbench

end PrivateMatching
