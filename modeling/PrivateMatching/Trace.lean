import PrivateMatching.Failure
import PrivateMatching.Operation.Basic

/-!
# Traces

An operation records a span, with the group and the length of the batch, and in
it one event that tells how it ended. Neither holds key material.
-/

namespace PrivateMatching

/-- How severe a record is. -/
inductive Level where
  /-- An ordinary step. -/
  | debug
  /-- A refusal. -/
  | warn
  deriving DecidableEq

/-- The name of a level. -/
def Level.name : Level → String
  | .debug => "DEBUG"
  | .warn => "WARN"

/-- The value of a field of a record. -/
inductive FieldValue where
  /-- A number. -/
  | number (n : Nat)
  /-- A text. -/
  | text (s : String)
  deriving DecidableEq

/-- The record of a running operation. -/
structure Span where
  /-- The operation. -/
  operation : Operation
  /-- The name of the group. -/
  group : String
  /-- The number of elements of the request. -/
  batchLength : Nat
  deriving DecidableEq

namespace Span

/-- The name of a span is that of its operation. -/
def name (span : Span) : String := span.operation.name

/-- A span is an ordinary step. -/
def level (_ : Span) : Level := .debug

/-- The fields of a span. -/
def fields (span : Span) : List (String × FieldValue) :=
  [("group", .text span.group), ("batch_len", .number span.batchLength)]

end Span

/-- What happened in an operation. -/
inductive Event where
  /-- A batch was processed. -/
  | batchProcessed (direction : Direction) (outputLength : Nat)
  /-- The key was refused. -/
  | keyRejected (failure : Failure)
  /-- An element of the batch was refused. -/
  | elementRejected (position : Nat) (reason : EncodingFault)
  /-- The batch failed in some other way. -/
  | batchFailed (failure : Failure)
  /-- A key was generated. -/
  | keyGenerated
  deriving DecidableEq

namespace Event

/-- The message of an event. -/
def message : Event → String
  | .batchProcessed .. => "batch processed"
  | .keyRejected _ => "rejected encryption key"
  | .elementRejected .. => "rejected batch element"
  | .batchFailed _ => "batch processing failed"
  | .keyGenerated => "generated commutative encryption key"

/-- The level of an event: refusals are warnings. -/
def level : Event → Level
  | .batchProcessed .. | .keyGenerated => .debug
  | .keyRejected _ | .elementRejected .. | .batchFailed _ => .warn

/-- The fields of an event. -/
def fields : Event → List (String × FieldValue)
  | .batchProcessed direction outputLength =>
    [("direction", .text direction.name), ("output_len", .number outputLength)]
  | .keyRejected failure | .batchFailed failure => [("error", .text failure.message)]
  | .elementRejected position reason =>
    [("position", .number position), ("reason", .text reason.message)]
  | .keyGenerated => []

end Event

/-- The record of one operation. -/
structure Trace where
  /-- The span of the operation. -/
  span : Span
  /-- The events in the span, in order. -/
  events : List Event
  deriving DecidableEq

end PrivateMatching
