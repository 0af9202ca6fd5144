import PrivateMatching.Proofs.Context

/-!
# What operations record

The trace of an operation is its span and the event of its outcome: the key is
refused, or the first fault of the batch is reported, or the batch is processed.

So the event tells the truth about the result (`Operation.Records`), with the text of
a failure that is returned and the number of strings that are. In a group of prime order there
is no other event, and each message comes with its own results only (`Context.trace_exact`).
-/

namespace PrivateMatching

namespace Operation

variable {C : Suite} {op : Operation} {request : Request op}

/-- A key that is not accepted is all that an operation records. -/
theorem trace_of_load_error {fault : KeyFault} (h : Key.load C request.key = .error fault) :
    trace C request =
      ⟨⟨op, C.name, request.elements.length⟩, [.keyRejected (.invalidKey fault)]⟩ := by
  simp only [trace, traced, process, h]

/-- The first fault of a batch is recorded. -/
theorem trace_of_firstFault {key : Key C} {position : ℕ} {reason : EncodingFault}
    (hkey : Key.load C request.key = .ok key)
    (hfault : Batch.FirstFault C request.elements position reason) :
    trace C request =
      ⟨⟨op, C.name, request.elements.length⟩, [.elementRejected position reason]⟩ := by
  simp only [trace, traced, process, hkey, Batch.apply_of_firstFault hfault]

/-- A batch that decodes is recorded as processed, with its length. -/
theorem trace_of_decode (hC : C.IsLawful) {key : Key C} {xs : List C.Element}
    (hkey : Key.load C request.key = .ok key)
    (hxs : List.Forall₂ (fun bytes x => C.decode bytes = .ok x) request.elements xs) :
    trace C request = ⟨⟨op, C.name, request.elements.length⟩,
      [.batchProcessed op.direction request.elements.length]⟩ := by
  obtain ⟨e, he⟩ := Modular.toZMod_surjective (key.factor op.direction)
  simp only [trace, traced, process, hkey, Batch.apply_of_isLawful hC key op.direction hxs he,
    List.length_map, hxs.length_eq]

/-! ## Events that match results -/

/-- An event records the result of an operation on a request, as it is shown. -/
inductive Records {op : Operation} (request : Request op) :
    Except Failure (Response op) → Event → Prop
  /-- The batch was processed, and the response is as long. -/
  | processed {response : Response op} {event : Event}
    (hmessage : event.message = "batch processed") (hlevel : event.level = .debug)
    (hfields : event.fields =
      [("direction", .text op.direction.name), ("output_len", .number response.elements.length)])
    (hlength : response.elements.length = request.elements.length) :
    Records request (.ok response) event
  /-- The key was refused, with the text of the failure. -/
  | keyRejected {reason : KeyFault} {event : Event}
    (hmessage : event.message = "rejected encryption key") (hlevel : event.level = .warn)
    (hfields : event.fields = [("error", .text (Failure.invalidKey reason).message)]) :
    Records request (.error (.invalidKey reason)) event
  /-- An element was refused, at a position of the batch and with the text of the reason. -/
  | elementRejected {position : ℕ} {reason : EncodingFault} {event : Event}
    (hmessage : event.message = "rejected batch element") (hlevel : event.level = .warn)
    (hfields : event.fields = [("position", .number position), ("reason", .text reason.message)])
    (hposition : position < request.elements.length) :
    Records request (.error (.invalidEncoding position reason)) event

/-- The message of an event tells what kind of result it records. -/
theorem Records.message_iff {r : Except Failure (Response op)} {event : Event}
    (h : Records request r event) :
    (event.message = "batch processed" ↔ ∃ response, r = .ok response) ∧
      (event.message = "rejected encryption key" ↔ ∃ reason, r = .error (.invalidKey reason)) ∧
      (event.message = "rejected batch element" ↔
        ∃ position reason, r = .error (.invalidEncoding position reason)) ∧
      event.message ≠ "batch processing failed" := by
  cases h with
  | processed hmessage => simp [hmessage]
  | keyRejected hmessage => simp [hmessage]
  | elementRejected hmessage => simp [hmessage]

/-- Operations are told apart by their names. -/
theorem name_injective : Function.Injective name := by
  intro a b h
  cases a <;> cases b <;> simp [name] at h ⊢

/-- In a group of prime order, an operation records its span and one event, which matches its
    result. -/
theorem exists_records (hC : C.IsLawful) (request : Request op) :
    ∃ event, trace C request = ⟨⟨op, C.name, request.elements.length⟩, [event]⟩ ∧
      Records request (run C request) event := by
  obtain ⟨r, houtcome⟩ := Outcome.exists (C := C) request
  rw [houtcome.run_eq hC]
  cases houtcome with
  | keyRejected hkey => exact ⟨_, trace_of_load_error hkey, .keyRejected rfl rfl rfl⟩
  | elementRejected hkey hfault =>
    obtain ⟨_, hget, _⟩ := hfault.fails
    have hposition := (List.getElem?_eq_some_iff.1 hget).1
    exact ⟨_, trace_of_firstFault hkey hfault, .elementRejected rfl rfl rfl hposition⟩
  | @processed key xs e hkey hxs he =>
    have hlength : (xs.map fun x => C.encode (C.exp x e)).length = request.elements.length := by
      rw [List.length_map, hxs.length_eq]
    exact ⟨_, trace_of_decode hC hkey hxs, .processed rfl rfl (by rw [hlength]; rfl) hlength⟩

end Operation

/-- The trace of an operation tells the truth about its result: it is the span of this very
    operation, with the length of the batch, and in it one event, which records the result that
    is returned. Each message comes with one kind of result, and a batch never fails in another
    way. -/
theorem Context.trace_exact (c : Context) {op : Operation} (request : Request op) :
    (∀ op' : Operation, (Operation.trace c.suite request).span.name = op'.name ↔ op' = op) ∧
      (Operation.trace c.suite request).span.level = .debug ∧
      (Operation.trace c.suite request).span.fields =
        [("group", .text c.suite.name), ("batch_len", .number request.elements.length)] ∧
      ∃ event, (Operation.trace c.suite request).events = [event] ∧
        Operation.Records request (Operation.run c.suite request) event ∧
        (event.message = "batch processed" ↔
          ∃ response, Operation.run c.suite request = .ok response) ∧
        (event.message = "rejected encryption key" ↔
          ∃ reason, Operation.run c.suite request = .error (.invalidKey reason)) ∧
        (event.message = "rejected batch element" ↔ ∃ position reason,
          Operation.run c.suite request = .error (.invalidEncoding position reason)) ∧
        event.message ≠ "batch processing failed" := by
  obtain ⟨event, htrace, hrecords⟩ := Operation.exists_records c.isLawful request
  rw [htrace]
  refine ⟨fun op' => ?_, rfl, rfl, event, rfl, hrecords, hrecords.message_iff⟩
  exact Operation.name_injective.eq_iff.trans eq_comm

end PrivateMatching
