import PrivateMatching.Exchange
import PrivateMatching.Proofs.Context

/-!
# What exchanges come to

A step of an exchange makes a batch, or leaves the batches as they were
(`Exchange.step_cases`). So a run changes only the batches that its steps make
(`Exchange.get?_after`).

Where the operations of an exchange each work on the batch that the one before it made
(`Exchange.relay`), they are a run of operations: the exchange answers batches only and ends
with a batch if and only if `Operation.runAll` returns it (`Exchange.runAll_eq_ok_iff`), and
the first step that is refused has the failure of the run (`Exchange.runAll_eq_error_iff`).

What is known of runs of operations is thereby known of exchanges. In a group of prime order,
two parties whose layers come to the same exponent compare what they made of their batches,
and are answered the matches of the batches they began with
(`Exchange.compare_of_netExponent_eq`).
-/

namespace PrivateMatching

namespace Exchange

variable {C : Suite} {batches : Batches} {first second : String} {X Y Z : List Bytes}

/-! ## Steps -/

/-- The name of the batch that a step makes, if it makes one. -/
def Step.target? : Step → Option String
  | .hash _ _ target | .set _ target | .replace _ _ _ target | .reverse _ target
  | .join _ _ target | .run _ _ _ target => some target
  | .compare _ _ => none

/-- A step makes its batch under the name it gives, and lists matches if it gives none. -/
theorem Step.target?_of_result {s : Step} :
    (∀ made target, s.result C batches = .ok (.inl (made, target)) → s.target? = some target) ∧
      ∀ found, s.result C batches = .ok (.inr found) → s.target? = none := by
  cases s <;> simp [result, target?]

/-- A step is refused and changes nothing, or it makes a batch, or it lists matches and
    changes nothing. -/
theorem step_cases (C : Suite) (batches : Batches) (s : Step) :
    (∃ refusal, step C batches s = (.error refusal, batches)) ∨
      (∃ made target, s.target? = some target ∧
        step C batches s = (.ok (.batch made), batches.put target made)) ∨
      ∃ found, s.target? = none ∧ step C batches s = (.ok (.pairs found), batches) := by
  rw [step]
  cases hresult : s.result C batches with
  | error refusal => exact .inl ⟨refusal, rfl⟩
  | ok outcome =>
    rcases outcome with ⟨made, target⟩ | found
    · exact .inr (.inl ⟨made, target, Step.target?_of_result.1 _ _ hresult, rfl⟩)
    · exact .inr (.inr ⟨found, Step.target?_of_result.2 _ hresult, rfl⟩)

/-- A step changes only the batch that it makes. -/
theorem get?_step {s : Step} {name : String} (h : s.target? ≠ some name) :
    (step C batches s).2.get? name = batches.get? name := by
  rcases step_cases C batches s with ⟨_, hs⟩ | ⟨_, target, htarget, hs⟩ | ⟨_, _, hs⟩
  · rw [hs]
  · rw [hs, Store.get?_put, if_neg]
    rintro rfl
    exact h htarget
  · rw [hs]

section Operations

variable {op : Operation} {key : Bytes} {target : String}

/-- A step that runs an operation answers what the operation returns, and keeps it. -/
theorem step_run_of_ok (h : batches.get? first = some X) {response : Response op}
    (hrun : Operation.run C (⟨key, X⟩ : Request op) = .ok response) :
    step C batches (.run op key first target) =
      (.ok (.batch response.elements), batches.put target response.elements) := by
  simp only [step, Step.result, Batches.fetch, h, bind, Except.bind, hrun]
  rfl

/-- A step is refused with the failure of its operation. -/
theorem step_run_of_error (h : batches.get? first = some X) {failure : Failure}
    (hrun : Operation.run C (⟨key, X⟩ : Request op) = .error failure) :
    step C batches (.run op key first target) = (.error (.failed failure), batches) := by
  simp only [step, Step.result, Batches.fetch, h, bind, Except.bind, hrun]
  rfl

end Operations

/-! ## Runs -/

/-- The batches behind a run. -/
def after (C : Suite) : Batches → List Step → Batches
  | batches, [] => batches
  | batches, s :: steps => after C (step C batches s).2 steps

/-- A run goes on from the batches that its first part left. -/
theorem run_append (steps steps' : List Step) :
    run C batches (steps ++ steps') =
      run C batches steps ++ run C (after C batches steps) steps' := by
  induction steps generalizing batches with
  | nil => rfl
  | cons s steps ih => simp only [List.cons_append, run, after, ih]

/-- A run changes only the batches that its steps make. -/
theorem get?_after {steps : List Step} {name : String}
    (h : ∀ s ∈ steps, s.target? ≠ some name) :
    (after C batches steps).get? name = batches.get? name := by
  induction steps generalizing batches with
  | nil => rfl
  | cons s steps ih =>
    obtain ⟨hs, hsteps⟩ := List.forall_mem_cons.1 h
    rw [after, ih hsteps, get?_step hs]

/-! ## Operations in a row -/

/-- The steps of operations in a row, each on the batch that the one before it made, with the
    names under which they put what they make. -/
def relay : String → List (Operation.Step C × String) → List Step
  | _, [] => []
  | first, (s, target) :: hops => .run s.op s.secret first target :: relay target hops

/-- The name of the batch that operations in a row end with. -/
def lastName : String → List (Operation.Step C × String) → String
  | first, [] => first
  | _, (_, target) :: hops => lastName target hops

variable {hops hops' : List (Operation.Step C × String)}

/-- Operations in a row make batches under their own names only. -/
theorem target?_ne_of_mem_relay {name : String} (h : ∀ hop ∈ hops, hop.2 ≠ name) :
    ∀ s ∈ relay first hops, s.target? ≠ some name := by
  induction hops generalizing first with
  | nil => exact fun _ hs => absurd hs List.not_mem_nil
  | cons hop hops ih =>
    obtain ⟨hhop, hhops⟩ := List.forall_mem_cons.1 h
    exact List.forall_mem_cons.2 ⟨fun htarget => hhop (Option.some.inj htarget), ih hhops⟩

/-- Operations in a row answer batches only and end with a batch if and only if the run of the
    operations returns it. -/
theorem runAll_eq_ok_iff (h : batches.get? first = some X) :
    Operation.runAll C (hops.map Prod.fst) X = .ok Z ↔
      (∀ answer ∈ run C batches (relay first hops), ∃ made, answer = .ok (.batch made)) ∧
        (after C batches (relay first hops)).get? (lastName first hops) = some Z := by
  induction hops generalizing batches first X with
  | nil => simp [Operation.runAll, relay, run, after, lastName, h]
  | cons hop hops ih =>
    obtain ⟨s, target⟩ := hop
    simp only [List.map_cons, Operation.runAll, relay, run, after, lastName,
      List.forall_mem_cons]
    cases hrun : Operation.run C (⟨s.secret, X⟩ : Request s.op) with
    | error failure =>
      rw [step_run_of_error h hrun]
      exact iff_of_false (by rintro ⟨⟩) (by rintro ⟨⟨⟨_, ⟨⟩⟩, _⟩, _⟩)
    | ok response =>
      rw [step_run_of_ok h hrun, ih (batches.get?_put_self target response.elements)]
      exact and_congr_left' (and_iff_right ⟨_, rfl⟩).symm

/-- The first failure of a run of operations is the first answer that is not a batch. -/
theorem runAll_eq_error_iff (h : batches.get? first = some X) {failure : Failure} :
    Operation.runAll C (hops.map Prod.fst) X = .error failure ↔
      ∃ (made : List (List Bytes)) (rest : List (Except Refusal Answer)),
        run C batches (relay first hops) =
          made.map (fun elements => .ok (.batch elements)) ++
            .error (.failed failure) :: rest := by
  induction hops generalizing batches first X with
  | nil =>
    refine iff_of_false (by rintro ⟨⟩) ?_
    rintro ⟨made, rest, hanswers⟩
    cases made <;> cases hanswers
  | cons hop hops ih =>
    obtain ⟨s, target⟩ := hop
    simp only [List.map_cons, Operation.runAll, relay, run]
    cases hrun : Operation.run C (⟨s.secret, X⟩ : Request s.op) with
    | error cause =>
      rw [step_run_of_error h hrun]
      constructor
      · rintro ⟨⟩
        exact ⟨[], _, rfl⟩
      · rintro ⟨made, rest, hanswers⟩
        cases made <;> cases hanswers
        rfl
    | ok response =>
      rw [step_run_of_ok h hrun, ih (batches.get?_put_self target response.elements)]
      constructor
      · rintro ⟨made, rest, hanswers⟩
        exact ⟨response.elements :: made, rest, congrArg _ hanswers⟩
      · rintro ⟨made, rest, hanswers⟩
        cases made with
        | nil => cases hanswers
        | cons elements made => exact ⟨made, rest, (List.cons.inj hanswers).2⟩

/-! ## Comparing -/

theorem step_compare (hX : batches.get? first = some X) (hY : batches.get? second = some Y) :
    step C batches (.compare first second) = (.ok (.pairs (Batch.matchList X Y)), batches) := by
  simp only [step, Step.result, Batches.fetch, hX, hY]
  rfl

/-- In a group of prime order, what two parties make of their batches by layers that come to
    the same exponent matches where the batches match. Each step before the comparison answers
    a batch. The names are such that neither party overwrites what the comparison needs of the
    other. -/
theorem compare_of_netExponent_eq (hC : C.IsLawful) (hX : batches.get? first = some X)
    (hY : batches.get? second = some Y) (hXdecodes : Batch.Decodes C X)
    (hYdecodes : Batch.Decodes C Y)
    (hnet : Operation.netExponent (hops.map Prod.fst) =
      Operation.netExponent (hops'.map Prod.fst))
    (hsecond : ∀ hop ∈ hops, hop.2 ≠ second)
    (hlast : ∀ hop ∈ hops', hop.2 ≠ lastName first hops) :
    ∃ answers, run C batches (relay first hops ++ (relay second hops' ++
        [.compare (lastName first hops) (lastName second hops')])) =
          answers ++ [.ok (.pairs (Batch.matchList X Y))] ∧
      ∀ answer ∈ answers, ∃ made, answer = .ok (.batch made) := by
  have := Fact.mk hC.prime_order
  have := Fact.mk hC.two_lt_order
  obtain ⟨G, _, R, hR⟩ := hC.exists_reading
  obtain ⟨gs, hgs⟩ := Batch.exists_encodes R hXdecodes
  obtain ⟨hs, hhs⟩ := Batch.exists_encodes R hYdecodes
  obtain ⟨U, hU, hUgs⟩ := Operation.runAll_of_encodes hR (hops.map Prod.fst) hgs
  obtain ⟨V, hV, hVhs⟩ := Operation.runAll_of_encodes hR (hops'.map Prod.fst) hhs
  -- The first party leaves the batch of the second alone, and the second the result of the first.
  obtain ⟨hanswersX, hgetU⟩ := (runAll_eq_ok_iff hX).1 hU
  have hYafter : (after C batches (relay first hops)).get? second = some Y :=
    (get?_after (target?_ne_of_mem_relay hsecond)).trans hY
  obtain ⟨hanswersY, hgetV⟩ := (runAll_eq_ok_iff hYafter).1 hV
  have hgetU' : (after C (after C batches (relay first hops)) (relay second hops')).get?
      (lastName first hops) = some U :=
    (get?_after (target?_ne_of_mem_relay hlast)).trans hgetU
  have hn : ((Operation.netExponent (hops.map Prod.fst)).val : ZMod C.order) ≠ 0 := by
    rw [ZMod.natCast_zmod_val]
    exact Operation.netExponent_ne_zero _
  have hmatch : Batch.matchList U V = Batch.matchList X Y :=
    matchList_of_encodes_pow hR hn hgs hUgs hhs (hnet ▸ hVhs)
  refine ⟨run C batches (relay first hops) ++
    run C (after C batches (relay first hops)) (relay second hops'), ?_, ?_⟩
  · rw [run_append, run_append, List.append_assoc]
    simp only [run, step_compare hgetU' hgetV, hmatch]
  · exact List.forall_mem_append.2 ⟨hanswersX, hanswersY⟩

/-- The keys three and five, on batches that have the residue nine in common. -/
example : run QuadraticResidue.suite ⟨[("x", [[0, 4], [0, 9]]), ("y", [[0, 16], [0, 9]])]⟩
    [.run .apply [0, 3] "x" "once", .run .reapply [0, 5] "once" "x",
      .run .apply [0, 5] "y" "once", .run .reapply [0, 3] "once" "y", .compare "x" "y"] =
    [.ok (.batch [[0, 64], [2, 217]]), .ok (.batch [[1, 90], [4, 177]]),
      .ok (.batch [[2, 18], [7, 165]]), .ok (.batch [[5, 174], [4, 177]]),
      .ok (.pairs [(1, 1)])] := by rfl

end Exchange

end PrivateMatching
