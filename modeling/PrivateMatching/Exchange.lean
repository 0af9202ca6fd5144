import PrivateMatching.Operation.Run
import PrivateMatching.Store

/-!
# Exchanges

An exchange is a script of what parties do with batches: hash identifiers, run
operations, pass batches on, perhaps changed on the way, and compare. Batches are
kept by name. A step that fails changes nothing, and the next ones still run.
-/

namespace PrivateMatching

namespace Exchange

/-- A step of an exchange. The names of the batches it reads come before the
    name of the batch it makes. -/
inductive Step where
  /-- Hashes identifiers under tags. -/
  | hash (tags : List Bytes) (ids : List String) (target : String)
  /-- Sets a batch. -/
  | set (elements : List Bytes) (target : String)
  /-- Replaces the string at a position. -/
  | replace (first : String) (index : Nat) (value : Bytes) (target : String)
  /-- Reverses a batch. -/
  | reverse (first target : String)
  /-- Appends a batch to another. -/
  | join (first second target : String)
  /-- Runs an operation with an encoded key. -/
  | run (op : Operation) (key : Bytes) (first target : String)
  /-- Lists the matches of two batches. -/
  | compare (first second : String)

/-- The batches a step reads. -/
inductive Operand where
  /-- The batch that a step works on. -/
  | first
  /-- The batch that it is put together with. -/
  | second
  deriving DecidableEq

/-- Why a step fails. -/
inductive Refusal where
  /-- A batch has not been made. -/
  | unset (operand : Operand)
  /-- The step itself fails. -/
  | failed (failure : Failure)
  deriving DecidableEq

/-- What a step answers. -/
inductive Answer where
  /-- The batch it makes. -/
  | batch (elements : List Bytes)
  /-- The matches it finds. -/
  | pairs (found : List (Nat × Nat))
  deriving DecidableEq

/-- The batches by name. -/
abbrev Batches := Store (List Bytes)

namespace Batches

/-- The batch of an operand. -/
def fetch (batches : Batches) (operand : Operand) (name : String) : Except Refusal (List Bytes) :=
  match batches.get? name with
  | some elements => .ok elements
  | none => .error (.unset operand)

end Batches

/-- The batch that a step makes, and its name; a step that makes none gives the
    matches. -/
def Step.result (C : Suite) (batches : Batches) :
    Step → Except Refusal (List Bytes × String ⊕ List (Nat × Nat))
  | .hash tags ids target => do
    let made ← (Batch.ofIdentifiers C tags ids).mapError .failed
    return .inl (made, target)
  | .set elements target => .ok (.inl (elements, target))
  | .replace first index value target => do
    return .inl ((← batches.fetch .first first).set index value, target)
  | .reverse first target => do
    return .inl ((← batches.fetch .first first).reverse, target)
  | .join first second target => do
    let front ← batches.fetch .first first
    let back ← batches.fetch .second second
    return .inl (front ++ back, target)
  | .run op key first target => do
    let elements ← batches.fetch .first first
    let request : Request op := ⟨key, elements⟩
    let response ← (Operation.run C request).mapError .failed
    return .inl (response.elements, target)
  | .compare first second => do
    let left ← batches.fetch .first first
    let right ← batches.fetch .second second
    return .inr (Batch.matchList left right)

/-- Runs one step: what it answers, and the batches behind it. -/
def step (C : Suite) (batches : Batches) (s : Step) : Except Refusal Answer × Batches :=
  match s.result C batches with
  | .error refusal => (.error refusal, batches)
  | .ok (.inl (made, target)) => (.ok (.batch made), batches.put target made)
  | .ok (.inr found) => (.ok (.pairs found), batches)

/-- Runs the steps of an exchange in order: what each answers. -/
def run (C : Suite) : Batches → List Step → List (Except Refusal Answer)
  | _, [] => []
  | batches, s :: steps =>
    let (answer, batches) := step C batches s
    answer :: run C batches steps

end Exchange

end PrivateMatching
