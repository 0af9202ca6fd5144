import PrivateMatching.Key

/-!
# Layers

A key acts on an element by exponentiation. A layer is that action with its
exponent worked out: the key's scalar to add the layer, the inverse to strip it.
As exponents multiply, layers of several keys come to the same in any order.

In a group of prime order no layer takes an element to the identity, unless it
was the identity; such a result is a fault.
-/

namespace PrivateMatching

/-- The action of a key in a direction. -/
structure Layer (C : Suite) where
  /-- The exponent of the action. -/
  exponent : Scalar C.order
  /-- Whether the layer is added or stripped. -/
  direction : Direction

namespace Layer

variable {C : Suite}

/-- The layer that a key adds. -/
def adding (key : Key C) : Layer C := ⟨key.scalar, .forward⟩

/-- The layer that a key strips. -/
def stripping (key : Key C) : Except ArithmeticFault (Layer C) :=
  key.inverse.map fun s => ⟨s, .inverse⟩

/-- The layer of a key in a direction. -/
def ofKey (key : Key C) : Direction → Except ArithmeticFault (Layer C)
  | .forward => .ok (adding key)
  | .inverse => stripping key

/-- The action of a layer on an element. -/
def apply (layer : Layer C) (x : C.Element) : Except ArithmeticFault C.Element :=
  let y := C.exp x layer.exponent
  if C.isIdentity y then .error (.identityResult layer.direction) else .ok y

end Layer

namespace Key

variable {C : Suite}

/-- Adds the layer of a key to an element. -/
def addLayer (key : Key C) (x : C.Element) : Except ArithmeticFault C.Element :=
  (Layer.adding key).apply x

/-- Strips the layer of a key from an element. -/
def stripLayer (key : Key C) (x : C.Element) : Except ArithmeticFault C.Element :=
  match Layer.stripping key with
  | .ok layer => layer.apply x
  | .error fault => .error fault

end Key

end PrivateMatching
