import PrivateMatching.Proofs.Context

/-!
# Batches in parts

A batch that is put together from parts has the results of its parts, put together, or else the
failure of the first part that fails, its position counted from the start of the batch
(`Batch.apply_flatten_of_ok`, `Batch.apply_flatten_of_firstError`). As a batch is decoded
before the key is used, this takes that no layer fails on what was decoded: otherwise a fault of
the arithmetic in one part would be overtaken by a bad string in a later one.

In particular every string of a batch is answered as by itself
(`Batch.apply_eq_ok_iff_singletons`), and a string that decodes is accepted in any batch
(`Operation.accepts_of_decode`).
-/

namespace PrivateMatching

/-! ## Failures of parts -/

namespace Failure

/-- The failure of a part of a batch as one of the batch: the part stands behind `offset`
    strings. -/
def after (offset : ℕ) : Failure → Failure
  | invalidEncoding position reason => invalidEncoding (offset + position) reason
  | failure => failure

@[simp] theorem after_zero (failure : Failure) : failure.after 0 = failure := by
  cases failure <;> simp [after]

@[simp] theorem after_after (m n : ℕ) (failure : Failure) :
    (failure.after n).after m = failure.after (m + n) := by
  cases failure <;> simp [after, Nat.add_assoc]

end Failure

namespace Batch

variable {C : Suite} {key : Key C} {direction : Direction} {X Y elements : List Bytes}

/-! ## First faults -/

/-- A fault of a batch is one of the longer batch. -/
theorem FirstFault.append {position : ℕ} {reason : EncodingFault}
    (h : FirstFault C X position reason) (Y : List Bytes) :
    FirstFault C (X ++ Y) position reason := by
  obtain ⟨bytes, hget, hfails⟩ := h.fails
  have hlt : position < X.length := (List.getElem?_eq_some_iff.1 hget).1
  refine ⟨⟨bytes, by rw [List.getElem?_append_left hlt, hget], hfails⟩, fun i hi b hb => ?_⟩
  rw [List.getElem?_append_left (hi.trans hlt)] at hb
  exact h.least i hi b hb

/-- A fault behind a batch that decodes. -/
theorem Decodes.firstFault_append (hX : Decodes C X) {position : ℕ} {reason : EncodingFault}
    (h : FirstFault C Y position reason) :
    FirstFault C (X ++ Y) (X.length + position) reason := by
  induction X with
  | nil => rwa [List.nil_append, List.length_nil, Nat.zero_add]
  | cons bytes X ih =>
    obtain ⟨⟨x, hx⟩, hrest⟩ := decodes_cons.1 hX
    rw [List.cons_append, List.length_cons, Nat.succ_add, firstFault_succ hx]
    exact ih hrest

/-! ## Results and failures -/

/-- A batch with a result decodes. -/
theorem decodes_of_apply {output : List Bytes} (h : apply key direction elements = .ok output) :
    Decodes C elements := by
  rcases decodes_or_firstFault C elements with hdecodes | ⟨_, _, hfault⟩
  · exact hdecodes
  · rw [apply_of_firstFault hfault] at h
    cases h

section Lawful

variable (hC : C.IsLawful)
include hC

/-- The result of a batch: every string is read, and its element raised to the exponent of the
    key. -/
theorem apply_eq_ok_iff {e : Scalar C.order} (he : Modular.toZMod e = key.factor direction)
    {output : List Bytes} : apply key direction elements = .ok output ↔
      List.Forall₂ (fun bytes y => ∃ x, C.decode bytes = .ok x ∧ C.encode (C.exp x e) = y)
        elements output := by
  rw [forall₂_exists_map_iff]
  constructor
  · intro h
    obtain ⟨xs, hxs⟩ := decodes_iff.1 (decodes_of_apply h)
    rw [apply_of_isLawful hC key direction hxs he] at h
    exact ⟨xs, hxs, Except.ok.inj h⟩
  · rintro ⟨xs, hxs, rfl⟩
    exact apply_of_isLawful hC key direction hxs he

/-- A batch has a result if and only if it decodes. -/
theorem exists_apply_iff :
    (∃ output, apply key direction elements = .ok output) ↔ Decodes C elements := by
  refine ⟨fun ⟨_, h⟩ => decodes_of_apply h, fun hdecodes => ?_⟩
  obtain ⟨e, he⟩ := Modular.toZMod_surjective (key.factor direction)
  obtain ⟨xs, hxs⟩ := decodes_iff.1 hdecodes
  exact ⟨_, apply_of_isLawful hC key direction hxs he⟩

/-- What fails a batch is its first fault. -/
theorem apply_eq_error_iff {failure : Failure} : apply key direction elements = .error failure ↔
    ∃ position reason, FirstFault C elements position reason ∧
      failure = .invalidEncoding position reason := by
  constructor
  · intro h
    rcases decodes_or_firstFault C elements with hdecodes | ⟨position, reason, hfault⟩
    · obtain ⟨output, hok⟩ : ∃ output, apply key direction elements = .ok output :=
        (exists_apply_iff hC).2 hdecodes
      rw [hok] at h
      cases h
    · rw [apply_of_firstFault hfault] at h
      exact ⟨position, reason, hfault, (Except.error.inj h).symm⟩
  · rintro ⟨position, reason, hfault, rfl⟩
    exact apply_of_firstFault hfault key direction

theorem apply_eq_invalidEncoding_iff {position : ℕ} {reason : EncodingFault} :
    apply key direction elements = .error (.invalidEncoding position reason) ↔
      FirstFault C elements position reason := by
  rw [apply_eq_error_iff hC]
  constructor
  · rintro ⟨_, _, hfault, heq⟩
    cases heq
    exact hfault
  · exact fun hfault => ⟨position, reason, hfault, rfl⟩

/-! ## Two parts -/

/-- A failure of the first part is that of the batch. -/
theorem apply_append_of_error {failure : Failure} (hX : apply key direction X = .error failure)
    (Y : List Bytes) : apply key direction (X ++ Y) = .error failure := by
  obtain ⟨position, reason, hfault, rfl⟩ := (apply_eq_error_iff hC).1 hX
  exact apply_of_firstFault (hfault.append Y) key direction

/-- A failure of the second part is that of the batch, if the first part has a result. -/
theorem apply_append_of_ok_of_error {output : List Bytes} {failure : Failure}
    (hX : apply key direction X = .ok output) (hY : apply key direction Y = .error failure) :
    apply key direction (X ++ Y) = .error (failure.after X.length) := by
  obtain ⟨position, reason, hfault, rfl⟩ := (apply_eq_error_iff hC).1 hY
  exact apply_of_firstFault ((decodes_of_apply hX).firstFault_append hfault) key direction

/-- Results of both parts make up that of the batch. -/
theorem apply_append_of_ok {xs ys : List Bytes} (hX : apply key direction X = .ok xs)
    (hY : apply key direction Y = .ok ys) : apply key direction (X ++ Y) = .ok (xs ++ ys) := by
  obtain ⟨e, he⟩ := Modular.toZMod_surjective (key.factor direction)
  rw [apply_eq_ok_iff hC he] at hX hY ⊢
  exact List.rel_append hX hY

end Lawful

/-! ## Any number of parts -/

variable {parts : List (List Bytes)} {m : ℕ} {failure : Failure}

section Lawful

variable (hC : C.IsLawful)
include hC

/-- Results of all parts make up that of the batch. -/
theorem apply_flatten_of_ok {outputs : List (List Bytes)}
    (h : List.Forall₂ (fun part output => apply key direction part = .ok output) parts outputs) :
    apply key direction parts.flatten = .ok outputs.flatten := by
  induction h with
  | nil =>
    obtain ⟨e, he⟩ := Modular.toZMod_surjective (key.factor direction)
    exact (apply_eq_ok_iff hC he).2 .nil
  | cons hpart _ ih =>
    rw [List.flatten_cons, List.flatten_cons]
    exact apply_append_of_ok hC hpart ih

/-- The failure of the first part that fails is that of the batch, behind the parts before
    it. -/
theorem apply_flatten_of_firstError (h : FirstError (apply key direction) parts m failure) :
    apply key direction parts.flatten = .error (failure.after (parts.take m).flatten.length) := by
  induction parts generalizing m with
  | nil =>
    obtain ⟨_, hpart, _⟩ := h.fails
    cases hpart
  | cons part parts ih =>
    rw [List.flatten_cons]
    cases m with
    | zero =>
      obtain ⟨_, hpart, hfails⟩ := h.fails
      obtain rfl := Option.some.inj hpart
      rw [List.take_zero, List.flatten_nil, List.length_nil, Failure.after_zero]
      exact apply_append_of_error hC hfails _
    | succ m =>
      obtain ⟨output, hok⟩ := h.least 0 (Nat.succ_pos m) part rfl
      rw [List.take_succ_cons, List.flatten_cons, List.length_append, ← Failure.after_after]
      exact apply_append_of_ok_of_error hC hok (ih ((firstError_succ hok).1 h))

theorem apply_flatten_eq_ok_iff {output : List Bytes} :
    apply key direction parts.flatten = .ok output ↔
      ∃ outputs, List.Forall₂ (fun part output => apply key direction part = .ok output) parts
        outputs ∧ outputs.flatten = output := by
  constructor
  · intro h
    rcases forall₂_or_firstError (apply key direction) parts with ⟨outputs, hok⟩ | ⟨m, _, hfirst⟩
    · rw [apply_flatten_of_ok hC hok] at h
      exact ⟨outputs, hok, Except.ok.inj h⟩
    · rw [apply_flatten_of_firstError hC hfirst] at h
      cases h
  · rintro ⟨outputs, hok, rfl⟩
    exact apply_flatten_of_ok hC hok

theorem apply_flatten_eq_error_iff {failure : Failure} :
    apply key direction parts.flatten = .error failure ↔
      ∃ m cause, FirstError (apply key direction) parts m cause ∧
        failure = cause.after (parts.take m).flatten.length := by
  constructor
  · intro h
    rcases forall₂_or_firstError (apply key direction) parts with
      ⟨outputs, hok⟩ | ⟨m, cause, hfirst⟩
    · rw [apply_flatten_of_ok hC hok] at h
      cases h
    · rw [apply_flatten_of_firstError hC hfirst] at h
      exact ⟨m, cause, hfirst, (Except.error.inj h).symm⟩
  · rintro ⟨m, cause, hfirst, rfl⟩
    exact apply_flatten_of_firstError hC hfirst

/-! ## Single strings -/

/-- The result of a batch is that of each string by itself. -/
theorem apply_eq_ok_iff_singletons {output : List Bytes} :
    apply key direction elements = .ok output ↔
      List.Forall₂ (fun bytes y => apply key direction [bytes] = .ok [y]) elements output := by
  obtain ⟨e, he⟩ := Modular.toZMod_surjective (key.factor direction)
  simp only [apply_eq_ok_iff hC he, List.forall₂_cons, List.Forall₂.nil, and_true]

theorem apply_singleton_eq_invalidEncoding_iff {bytes : Bytes} {reason : EncodingFault} :
    apply key direction [bytes] = .error (.invalidEncoding 0 reason) ↔
      C.decode bytes = .error reason := by
  rw [apply_eq_invalidEncoding_iff hC]
  constructor
  · intro h
    obtain ⟨_, hget, hfails⟩ := h.fails
    rwa [Option.some.inj hget]
  · exact firstFault_zero

/-- A batch is refused at the first position whose string is refused by itself, for the same
    reason. -/
theorem apply_eq_invalidEncoding_iff_singletons {position : ℕ} {reason : EncodingFault} :
    apply key direction elements = .error (.invalidEncoding position reason) ↔
      FirstError (fun bytes => apply key direction [bytes]) elements position
        (.invalidEncoding 0 reason) := by
  rw [apply_eq_invalidEncoding_iff hC, firstFault_iff]
  refine firstError_congr (fun bytes => ?_) fun bytes => ?_
  · rw [apply_singleton_eq_invalidEncoding_iff hC]
  · rw [exists_apply_iff hC, decodes_singleton]

end Lawful

end Batch

/-! ## Strings that decode -/

section Accepted

variable {C : Suite} {bytes : Bytes} {x : C.Element}

/-- Whether a batch decodes does not depend on a string in it that does. -/
theorem Batch.decodes_append_cons_iff (h : C.decode bytes = .ok x) (front rest : List Bytes) :
    Decodes C (front ++ bytes :: rest) ↔ Decodes C (front ++ rest) := by
  simp only [Decodes, List.forall_mem_append, List.forall_mem_cons]
  exact and_congr_right' (and_iff_right ⟨x, h⟩)

variable (hC : C.IsLawful) {op : Operation} {key : Key C}
include hC

/-- With an accepted key, an operation has a response if and only if the batch decodes. -/
theorem Operation.exists_run_iff {request : Request op}
    (hkey : Key.load C request.key = .ok key) :
    (∃ response, run C request = .ok response) ↔ Batch.Decodes C request.elements := by
  have happly : (∃ output, Batch.apply key op.direction request.elements = .ok output) ↔ _ :=
    Batch.exists_apply_iff hC
  rw [← happly]
  constructor
  · rintro ⟨⟨output⟩, h⟩
    exact ⟨output, (run_eq_ok_iff hkey).1 h⟩
  · rintro ⟨output, h⟩
    exact ⟨⟨output⟩, (run_eq_ok_iff hkey).2 h⟩

/-- A string that decodes is accepted in any batch: it is not refused, and does not matter to
    whether there is a response. -/
theorem Operation.accepts_of_decode {secret : Bytes} (hkey : Key.load C secret = .ok key)
    (hdecode : C.decode bytes = .ok x) (front rest : List Bytes) :
    (∀ reason, run C (⟨secret, front ++ bytes :: rest⟩ : Request op) ≠
        .error (.invalidEncoding front.length reason)) ∧
      ((∃ response, run C (⟨secret, front ++ bytes :: rest⟩ : Request op) = .ok response) ↔
        ∃ response, run C (⟨secret, front ++ rest⟩ : Request op) = .ok response) := by
  have hiff : ∀ elements : List Bytes,
      (∃ response, run C (⟨secret, elements⟩ : Request op) = .ok response) ↔
        Batch.Decodes C elements := fun elements => exists_run_iff hC hkey
  constructor
  · intro reason h
    rw [run_eq_error_iff hkey, Batch.apply_eq_invalidEncoding_iff hC] at h
    obtain ⟨bytes', hget, hfails⟩ := h.fails
    obtain rfl : bytes = bytes' := by simpa using hget
    rw [hdecode] at hfails
    cases hfails
  · rw [hiff, hiff]
    exact Batch.decodes_append_cons_iff hdecode front rest

end Accepted

/-- Splitting a batch never changes the answer. A batch that is put together from parts has the
    results of the parts, put together; or if a part fails, the failure of the first one that
    does, its position counted from the start of the batch. In particular every string is
    answered as by itself. -/
theorem Context.apply_flatten (c : Context) (key : Key c.suite) (direction : Direction) :
    (∀ parts : List (List Bytes),
      (∀ output, Batch.apply key direction parts.flatten = .ok output ↔
        ∃ outputs, List.Forall₂ (fun part output => Batch.apply key direction part = .ok output)
          parts outputs ∧ outputs.flatten = output) ∧
      ∀ failure, Batch.apply key direction parts.flatten = .error failure ↔
        ∃ m cause, FirstError (Batch.apply key direction) parts m cause ∧
          failure = cause.after (parts.take m).flatten.length) ∧
    ∀ elements : List Bytes,
      (∀ output, Batch.apply key direction elements = .ok output ↔
        List.Forall₂ (fun bytes y => Batch.apply key direction [bytes] = .ok [y]) elements
          output) ∧
      ∀ position reason,
        Batch.apply key direction elements = .error (.invalidEncoding position reason) ↔
          FirstError (fun bytes => Batch.apply key direction [bytes]) elements position
            (.invalidEncoding 0 reason) :=
  ⟨fun _ => ⟨fun _ => Batch.apply_flatten_eq_ok_iff c.isLawful,
    fun _ => Batch.apply_flatten_eq_error_iff c.isLawful⟩,
  fun _ => ⟨fun _ => Batch.apply_eq_ok_iff_singletons c.isLawful,
    fun _ _ => Batch.apply_eq_invalidEncoding_iff_singletons c.isLawful⟩⟩

end PrivateMatching
