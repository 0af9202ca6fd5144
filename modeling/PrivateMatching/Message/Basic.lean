import PrivateMatching.Bytes
import PrivateMatching.Operation.Basic

/-!
# Requests and responses

A request holds the caller's key and a batch; a response holds a batch. What is
shown of a request never depends on the key, and on the batch only through its
length.
-/

namespace PrivateMatching

/-- What an operation takes. -/
structure Request (op : Operation) where
  /-- The encoded key of the calling party. -/
  key : Bytes
  /-- The encoded elements. -/
  elements : List Bytes
  deriving DecidableEq

/-- What an operation gives: as many elements, in the order of the request. -/
structure Response (op : Operation) where
  /-- The encoded elements. -/
  elements : List Bytes
  deriving DecidableEq

namespace Request

variable {op : Operation}

/-- The request of an empty key for no elements. -/
def empty : Request op := ⟨[], []⟩

/-- The fields of a request as they are shown: the key is redacted, and of the
    batch there is the length. -/
def shownFields (request : Request op) : List (String × String) :=
  [(Operation.keyField, "\"<redacted>\""), (op.inputField, toString request.elements.length)]

/-- A request on one line. -/
def shown (request : Request op) : String :=
  op.requestName ++ " \x7b " ++
    ", ".intercalate (request.shownFields.map fun f => f.1 ++ ": " ++ f.2) ++ " \x7d"

/-- A request with a line for each field. -/
def shownLines (request : Request op) : String :=
  op.requestName ++ " \x7b\n" ++
    String.join (request.shownFields.map fun f => "    " ++ f.1 ++ ": " ++ f.2 ++ ",\n") ++
    "\x7d"

end Request

end PrivateMatching
