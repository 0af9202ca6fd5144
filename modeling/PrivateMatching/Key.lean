import PrivateMatching.Suite

/-!
# Keys

A key is a scalar that is not zero. Keys are loaded from byte strings, made from
scalars or drawn from random bytes, and exported in the encoding they are loaded
from.

* `Key.toBytes_of_load`: an accepted string is what its key exports.
-/

namespace PrivateMatching

/-- A key: a scalar that is not zero. -/
structure Key (C : Suite) where
  /-- The exponent of a layer of the key. -/
  scalar : Scalar C.order
  /-- A layer of the key can be stripped. -/
  ne_zero : scalar.val ≠ 0

namespace Key

variable {C : Suite}

/-- The key of a scalar. -/
def ofScalar (s : Scalar C.order) : Except KeyFault (Key C) :=
  if h : s.val = 0 then .error .zero else .ok ⟨s, h⟩

/-- Loads a key: the width of the string is checked first, then the range of its
    value, then whether it is zero. -/
def load (C : Suite) (secret : Bytes) : Except KeyFault (Key C) :=
  match C.scalars.decode secret with
  | .error (.wrongLength expected actual) => .error (.wrongLength expected actual)
  | .error .malformed | .error .identity => .error .outOfRange
  | .ok s => ofScalar s

/-- The encoding that `load` accepts. -/
def toBytes (key : Key C) : Bytes := C.scalars.encode key.scalar

/-- The exponent that strips a layer of the key. -/
def inverse (key : Key C) : Except ArithmeticFault (Scalar C.order) :=
  match key.scalar.inv? with
  | some s => .ok s
  | none => .error .keyNotInvertible

/-- What is shown of a key, whichever it is. -/
def shown (_ : Key C) : String := "Key(<redacted>)"

/-- Draws scalars until one is not zero. As a source may give none, the answer is
    limited to `tries` scalars, each of at most as many blocks. -/
def generate (C : Suite) : (tries : Nat) → ByteSource → Option (Key C × ByteSource)
  | 0, _ => none
  | tries + 1, source =>
    match C.scalarSampler.draw (tries + 1) source with
    | none => none
    | some (s, source) =>
      match ofScalar s with
      | .ok key => some (key, source)
      | .error _ => generate C tries source

theorem ofScalar_eq_ok {s : Scalar C.order} {key : Key C} :
    ofScalar s = .ok key ↔ key.scalar = s := by
  unfold ofScalar
  split
  · rename_i h
    constructor
    · intro h'
      cases h'
    · rintro rfl
      exact absurd h key.ne_zero
  · constructor
    · intro h'
      cases h'
      rfl
    · rintro rfl
      rfl

theorem load_eq_ok {secret : Bytes} {key : Key C} :
    load C secret = .ok key ↔ C.scalars.decode secret = .ok key.scalar := by
  unfold load
  split
  · simp_all
  · simp_all
  · simp_all
  · rename_i s hs
    rw [hs, ofScalar_eq_ok, Except.ok.injEq]
    exact eq_comm

/-- An accepted string is what its key exports. -/
theorem toBytes_of_load {secret : Bytes} {key : Key C} (h : load C secret = .ok key) :
    key.toBytes = secret :=
  ScalarFormat.encode_of_decode (load_eq_ok.1 h)

end Key

end PrivateMatching
