import PrivateMatching.Proofs.Context
import PrivateMatching.Proofs.Trace

/-!
# What is shown does not depend on the key

A run shows more than the batch it returns: the records of its trace, and a
failure with its wording (`Operation.observe`). In a group of prime order none of
it tells two accepted keys apart, and of a refused key it tells why it is refused
only (`Key.SameClass`): no key takes an element to the identity, so whether a
batch fails, and where, is decided before the key is used. Nor do the shown forms
of a request tell more than the length of its batch (`Context.observe_congr`).
-/

namespace PrivateMatching

namespace Key

variable {C : Suite} {a b : Bytes}

/-- Two strings are both accepted as keys, or refused for one reason. -/
inductive SameClass (C : Suite) : Bytes → Bytes → Prop
  /-- Both are accepted. -/
  | accepted {a b : Bytes} {ka kb : Key C} (ha : load C a = .ok ka) (hb : load C b = .ok kb) :
    SameClass C a b
  /-- Both have the same wrong length. -/
  | wrongLength {a b : Bytes} (ha : a.length ≠ C.scalars.width) (hb : b.length = a.length) :
    SameClass C a b
  /-- Both have the right width and are zero. -/
  | zero {a b : Bytes} (ha : a.length = C.scalars.width) (hb : b.length = C.scalars.width)
    (hza : Bytes.toNat C.scalars.byteOrder a = 0) (hzb : Bytes.toNat C.scalars.byteOrder b = 0) :
    SameClass C a b
  /-- Both have the right width and are not smaller than the order. -/
  | outOfRange {a b : Bytes} (ha : a.length = C.scalars.width) (hb : b.length = C.scalars.width)
    (hra : C.order ≤ Bytes.toNat C.scalars.byteOrder a)
    (hrb : C.order ≤ Bytes.toNat C.scalars.byteOrder b) : SameClass C a b

/-- Strings of one class are both loaded, or refused with one fault. -/
theorem SameClass.load_cases (h : SameClass C a b) :
    (∃ ka kb, load C a = .ok ka ∧ load C b = .ok kb) ∨
      ∃ fault, load C a = .error fault ∧ load C b = .error fault := by
  cases h with
  | accepted ha hb => exact .inl ⟨_, _, ha, hb⟩
  | wrongLength ha hb =>
    refine .inr ⟨_, load_of_length_ne ha, ?_⟩
    rw [load_of_length_ne (hb ▸ ha), hb]
  | zero ha hb hza hzb =>
    exact .inr ⟨_, load_of_toNat_eq_zero ha hza, load_of_toNat_eq_zero hb hzb⟩
  | outOfRange ha hb hra hrb =>
    exact .inr ⟨_, load_of_order_le ha hra, load_of_order_le hb hrb⟩

end Key

/-! ## Runs -/

namespace Operation

/-- What a run shows beside the batch it returns. -/
structure Observation where
  /-- The span and the events. -/
  trace : Trace
  /-- The failure that is returned, if one is. -/
  failure : Option Failure
  /-- The wording of the failure. -/
  wording : Option String

/-- The failure that an operation returns, if it does. -/
def failure? (C : Suite) {op : Operation} (request : Request op) : Option Failure :=
  match run C request with
  | .error failure => some failure
  | .ok _ => none

/-- What an operation on a request shows. -/
def observe (C : Suite) {op : Operation} (request : Request op) : Observation where
  trace := trace C request
  failure := failure? C request
  wording := (failure? C request).map Failure.message

section Congr

variable {C : Suite} {op : Operation} {a b : Bytes} {elements : List Bytes}

/-- Operations that record and fail alike show the same. -/
theorem observe_eq {request request' : Request op} (htrace : trace C request = trace C request')
    (hfailure : failure? C request = failure? C request') :
    observe C request = observe C request' := by
  rw [observe, observe, htrace, hfailure]

/-- Keys that are refused with one fault show the same. -/
theorem observe_of_load_error {fault : KeyFault} (ha : Key.load C a = .error fault)
    (hb : Key.load C b = .error fault) :
    observe C (⟨a, elements⟩ : Request op) = observe C (⟨b, elements⟩ : Request op) := by
  refine observe_eq ?_ ?_
  · rw [trace_of_load_error ha, trace_of_load_error hb]
  · rw [failure?, failure?, run_of_load_error ha, run_of_load_error hb]

/-- In a group of prime order, keys that are accepted show the same. -/
theorem observe_of_load (hC : C.IsLawful) {ka kb : Key C} (ha : Key.load C a = .ok ka)
    (hb : Key.load C b = .ok kb) :
    observe C (⟨a, elements⟩ : Request op) = observe C (⟨b, elements⟩ : Request op) := by
  -- Which case it is depends on the batch only.
  rcases Batch.decodes_or_firstFault C elements with hdecodes | ⟨position, reason, hfault⟩
  · obtain ⟨xs, hxs⟩ := Batch.decodes_iff.1 hdecodes
    obtain ⟨ea, hea⟩ := Modular.toZMod_surjective (ka.factor op.direction)
    obtain ⟨eb, heb⟩ := Modular.toZMod_surjective (kb.factor op.direction)
    refine observe_eq ?_ ?_
    · rw [trace_of_decode hC ha hxs, trace_of_decode hC hb hxs]
    · rw [failure?, failure?, run_of_decode hC ha hxs hea, run_of_decode hC hb hxs heb]
  · refine observe_eq ?_ ?_
    · rw [trace_of_firstFault ha hfault, trace_of_firstFault hb hfault]
    · rw [failure?, failure?, run_of_firstFault ha hfault, run_of_firstFault hb hfault]

end Congr

end Operation

/-! ## Requests -/

namespace Request

variable {op : Operation} {request request' : Request op}

/-- The fields that are shown of a request depend on the length of its batch. -/
theorem shownFields_congr (h : request.elements.length = request'.elements.length) :
    request.shownFields = request'.shownFields := by
  rw [shownFields, shownFields, h]

end Request

/-- Nothing that is shown reveals a key: for keys of one class, operations on one
    batch show the same, and requests with batches of one length look the same. -/
theorem Context.observe_congr (c : Context) {op : Operation} :
    (∀ (elements : List Bytes) (a b : Bytes), Key.SameClass c.suite a b →
      Operation.observe c.suite (⟨a, elements⟩ : Request op) =
        Operation.observe c.suite (⟨b, elements⟩ : Request op)) ∧
    ∀ request request' : Request op, request.elements.length = request'.elements.length →
      request.shown = request'.shown ∧ request.shownLines = request'.shownLines := by
  constructor
  · intro elements a b h
    rcases h.load_cases with ⟨ka, kb, ha, hb⟩ | ⟨fault, ha, hb⟩
    · exact Operation.observe_of_load c.isLawful ha hb
    · exact Operation.observe_of_load_error ha hb
  · intro request request' h
    have hfields := Request.shownFields_congr h
    exact ⟨by rw [Request.shown, Request.shown, hfields],
      by rw [Request.shownLines, Request.shownLines, hfields]⟩

/-- Two keys that are stripped from a batch with a fault, and two requests. -/
theorem Context.observe_congr_decrypt :
    Operation.observe toy.suite (⟨[0, 3], [[0, 4], [0, 1]]⟩ : Request .decrypt) =
        Operation.observe toy.suite (⟨[3, 250], [[0, 4], [0, 1]]⟩ : Request .decrypt) ∧
      (⟨[0, 3], [[0, 4], [0, 1]]⟩ : Request .decrypt).shown =
        (⟨[], [[], [7]]⟩ : Request .decrypt).shown := by
  have ha : Key.load toy.suite [0, 3] = .ok ⟨(3 : Scalar 1019), by decide⟩ := rfl
  have hb : Key.load toy.suite [3, 250] = .ok ⟨(1018 : Scalar 1019), by decide⟩ := rfl
  exact ⟨(observe_congr toy).1 _ _ _ (.accepted ha hb), ((observe_congr toy).2 _ _ rfl).1⟩

end PrivateMatching
