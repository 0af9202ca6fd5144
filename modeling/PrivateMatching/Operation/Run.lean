import PrivateMatching.Batch
import PrivateMatching.Message.Basic
import PrivateMatching.Trace

/-!
# Running operations

An operation loads the key, decodes the whole batch, and only then works on the
elements. It answers with a response, or with the first failure, and always
leaves a trace.
-/

namespace PrivateMatching

namespace Operation

variable (C : Suite)

/-- A layer of an encoded key on a batch, and the event that records how it
    ended. -/
def process (secret : Bytes) (direction : Direction) (elements : List Bytes) :
    Except Failure (List Bytes) × Event :=
  match Key.load C secret with
  | .error fault => (.error (.invalidKey fault), .keyRejected (.invalidKey fault))
  | .ok key =>
    match Batch.apply key direction elements with
    | .error (.invalidEncoding position reason) =>
      (.error (.invalidEncoding position reason), .elementRejected position reason)
    | .error failure => (.error failure, .batchFailed failure)
    | .ok output => (.ok output, .batchProcessed direction output.length)

/-- Runs an operation on a request: its result and its trace. -/
def traced {op : Operation} (request : Request op) : Except Failure (Response op) × Trace :=
  let outcome := process C request.key op.direction request.elements
  (outcome.1.map fun elements => ⟨elements⟩,
    ⟨⟨op, C.name, request.elements.length⟩, [outcome.2]⟩)

/-- The result of an operation on a request. -/
def run {op : Operation} (request : Request op) : Except Failure (Response op) :=
  (traced C request).1

/-- The trace of an operation on a request. -/
def trace {op : Operation} (request : Request op) : Trace := (traced C request).2

/-- Generates an encoded key, and records that it did. -/
def generateKey (tries : Nat) (source : ByteSource) : Option (Bytes × Event × ByteSource) :=
  (Key.generate C tries source).map fun r => (r.1.toBytes, .keyGenerated, r.2)

end Operation

end PrivateMatching
