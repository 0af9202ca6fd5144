import PrivateMatching.Layer

/-!
# Batches

A batch is a list of encoded elements, and its order matters: a layer on a batch
is the layer on each element, in place. It is all or nothing: the whole batch is
decoded before the key is used, and the failure is the one at the lowest bad
position.
-/

namespace PrivateMatching

namespace Batch

variable {C : Suite}

/-- Decodes the rest of a batch, from a position on. -/
def decodeFrom (C : Suite) : (position : Nat) → List Bytes → Except Failure (List C.Element)
  | _, [] => .ok []
  | position, bytes :: rest =>
    match C.decode bytes with
    | .error reason => .error (.invalidEncoding position reason)
    | .ok x =>
      match decodeFrom C (position + 1) rest with
      | .error failure => .error failure
      | .ok xs => .ok (x :: xs)

/-- Decodes a batch; it fails at the lowest position that does not decode. -/
def decode (C : Suite) (elements : List Bytes) : Except Failure (List C.Element) :=
  decodeFrom C 0 elements

/-- The encoded results of a layer on a list of elements. -/
def transform (layer : Layer C) : List C.Element → Except ArithmeticFault (List Bytes)
  | [] => .ok []
  | x :: xs =>
    match layer.apply x with
    | .error fault => .error fault
    | .ok y =>
      match transform layer xs with
      | .error fault => .error fault
      | .ok ys => .ok (C.encode y :: ys)

/-- Refuses an output that is not as long as the input. -/
def checkLength (expected actual : Nat) : Except Failure Unit :=
  if expected = actual then .ok () else .error (.sizeMismatch expected actual)

/-- A layer of a key on a batch. -/
def apply (key : Key C) (direction : Direction) (elements : List Bytes) :
    Except Failure (List Bytes) :=
  match decode C elements with
  | .error failure => .error failure
  | .ok decoded =>
    match Layer.ofKey key direction with
    | .error fault => .error (.arithmetic fault)
    | .ok layer =>
      match transform layer decoded with
      | .error fault => .error (.arithmetic fault)
      | .ok output =>
        match checkLength elements.length output.length with
        | .error failure => .error failure
        | .ok () => .ok output

/-- The encoded hashes of identifiers under some tags, each hashed as one input;
    the first hash that fails, fails the batch. -/
def ofIdentifiers (C : Suite) (tags : List Bytes) : List String → Except Failure (List Bytes)
  | [] => .ok []
  | id :: ids =>
    match C.hash [Bytes.ofText id] tags with
    | .error cause => .error (.hash cause)
    | .ok x =>
      match ofIdentifiers C tags ids with
      | .error failure => .error failure
      | .ok rest => .ok (C.encode x :: rest)

/-- The pairs of positions at which two batches hold the same string, ordered by
    the first position and then by the second. -/
def matchList (first second : List Bytes) : List (Nat × Nat) :=
  first.zipIdx.flatMap fun (x, i) =>
    second.zipIdx.filterMap fun (y, j) => if x = y then some (i, j) else none

end Batch

end PrivateMatching
