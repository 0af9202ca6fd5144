/-!
# Directions

A key moves an element in one of two directions: forward adds the key's layer,
inverse strips it.
-/

namespace PrivateMatching

/-- Which way a layer moves an element. -/
inductive Direction where
  /-- Adds a layer, from `x` to `x ^ k`. -/
  | forward
  /-- Strips a layer, from `x` to `x ^ (1 / k)`. -/
  | inverse
  deriving DecidableEq

/-- The name of a direction in traces and failures. -/
def Direction.name : Direction → String
  | .forward => "Forward"
  | .inverse => "Inverse"

end PrivateMatching
