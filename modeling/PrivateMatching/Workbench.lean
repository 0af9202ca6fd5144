import PrivateMatching.Key
import PrivateMatching.Store

/-!
# Workbenches

A workbench is a script of single group operations. Elements and scalars are kept
by name, apart from each other. A step that fails changes nothing, and the next
ones still run.
-/

namespace PrivateMatching

/-- An element as a script gives it: at hand, or encoded. -/
inductive ElementSource (C : Suite) where
  /-- An element at hand, which is not checked. -/
  | given (x : C.Element)
  /-- An encoded element. -/
  | encoded (bytes : Bytes)

/-- The element that is given. -/
def ElementSource.resolve {C : Suite} : ElementSource C → Except EncodingFault C.Element
  | .given x => .ok x
  | .encoded bytes => C.decode bytes

namespace Workbench

/-- A step. The names of the values it reads come before the name of the value it
    makes. -/
inductive Step (C : Suite) where
  /-- Sets an element. -/
  | element (value : ElementSource C) (target : String)
  /-- Hashes inputs under tags. -/
  | hash (inputs tags : List Bytes) (target : String)
  /-- The group operation. -/
  | mul (a b target : String)
  /-- An element raised to a scalar. -/
  | exp (a s target : String)
  /-- The generator raised to a scalar. -/
  | generatorExp (s target : String)
  /-- Whether an element is the identity. -/
  | isIdentity (a : String)
  /-- Whether two elements are equal. -/
  | equal (a b : String)
  /-- Reads a scalar. -/
  | scalar (value : Bytes) (target : String)
  /-- Sets a scalar to a number. -/
  | number (n : Nat) (target : String)
  /-- Sets a scalar to zero. -/
  | zero (target : String)
  /-- Sets a scalar to one. -/
  | one (target : String)
  /-- The sum of scalars. -/
  | addScalars (a b target : String)
  /-- The product of scalars. -/
  | mulScalars (a b target : String)
  /-- The inverse of a scalar. -/
  | invert (a target : String)
  /-- Whether a scalar is zero. -/
  | isZero (a : String)
  /-- Whether two scalars are equal. -/
  | equalScalars (a b : String)
  /-- A wiped copy of a scalar, which is zero. -/
  | wipe (a target : String)
  /-- The key of a scalar. -/
  | key (a : String)

/-- The values a step reads. -/
inductive Operand where
  /-- The first element or scalar. -/
  | a
  /-- The second element or scalar. -/
  | b
  /-- The exponent. -/
  | s
  deriving DecidableEq

/-- Why a step fails. -/
inductive Refusal where
  /-- A value has not been made. -/
  | unset (operand : Operand)
  /-- An encoding is refused. -/
  | encoding (fault : EncodingFault)
  /-- A hash fails. -/
  | hash (fault : HashFault)
  /-- A key is refused. -/
  | key (fault : KeyFault)
  deriving DecidableEq

/-- What a step answers. -/
inductive Answer (C : Suite) where
  /-- The element it makes. -/
  | element (x : C.Element)
  /-- The scalar it makes. -/
  | scalar (s : Scalar C.order)
  /-- There is no such scalar. -/
  | noScalar
  /-- The answer to a question. -/
  | truth (value : Bool)
  /-- The key it makes. -/
  | key (key : Key C)

/-- The values by name. -/
structure Values (C : Suite) where
  /-- The elements. -/
  elements : Store C.Element
  /-- The scalars. -/
  scalars : Store (Scalar C.order)

namespace Values

variable {C : Suite}

/-- No values. -/
def empty : Values C := ⟨.empty, .empty⟩

/-- The element of an operand. -/
def element (values : Values C) (operand : Operand) (name : String) :
    Except Refusal C.Element :=
  match values.elements.get? name with
  | some x => .ok x
  | none => .error (.unset operand)

/-- The scalar of an operand. -/
def scalar (values : Values C) (operand : Operand) (name : String) :
    Except Refusal (Scalar C.order) :=
  match values.scalars.get? name with
  | some s => .ok s
  | none => .error (.unset operand)

/-- The values with an answer put under a name; only elements and scalars are
    kept. -/
def keep (values : Values C) (target : String) : Answer C → Values C
  | .element x => { values with elements := values.elements.put target x }
  | .scalar s => { values with scalars := values.scalars.put target s }
  | _ => values

end Values

/-- What a step answers; the operands are looked up in order. -/
def Step.answer {C : Suite} (values : Values C) : Step C → Except Refusal (Answer C)
  | .element value _ => return .element (← value.resolve.mapError .encoding)
  | .hash inputs tags _ => return .element (← (C.hash inputs tags).mapError .hash)
  | .mul a b _ => return .element (C.mul (← values.element .a a) (← values.element .b b))
  | .exp a s _ => return .element (C.exp (← values.element .a a) (← values.scalar .s s))
  | .generatorExp s _ => return .element (C.generatorExp (← values.scalar .s s))
  | .isIdentity a => return .truth (C.isIdentity (← values.element .a a))
  | .equal a b => return .truth (C.equal (← values.element .a a) (← values.element .b b))
  | .scalar value _ => return .scalar (← (C.scalars.decode value).mapError .encoding)
  | .number n _ => return .scalar (C.scalars.ofNat n)
  | .zero _ => return .scalar C.scalars.zero
  | .one _ => return .scalar C.scalars.one
  | .addScalars a b _ => return .scalar ((← values.scalar .a a) + (← values.scalar .b b))
  | .mulScalars a b _ => return .scalar ((← values.scalar .a a) * (← values.scalar .b b))
  | .invert a _ =>
    return match (← values.scalar .a a).inv? with
      | some s => .scalar s
      | none => .noScalar
  | .isZero a => return .truth (← values.scalar .a a).isZero
  | .equalScalars a b =>
    return .truth (decide ((← values.scalar .a a) = (← values.scalar .b b)))
  | .wipe a _ => do
    let _ ← values.scalar .a a
    return .scalar C.scalars.zero
  | .key a => return .key (← (Key.ofScalar (← values.scalar .a a)).mapError .key)

/-- The name of the value that a step makes, if it makes one. -/
def Step.target? {C : Suite} : Step C → Option String
  | .element _ target | .hash _ _ target | .mul _ _ target | .exp _ _ target
  | .generatorExp _ target | .scalar _ target | .number _ target | .zero target | .one target
  | .addScalars _ _ target | .mulScalars _ _ target | .invert _ target | .wipe _ target =>
    some target
  | .isIdentity _ | .equal .. | .isZero _ | .equalScalars .. | .key _ => none

/-- Runs one step: what it answers, and the values behind it. -/
def step {C : Suite} (values : Values C) (s : Step C) :
    Except Refusal (Answer C) × Values C :=
  match s.answer values with
  | .error refusal => (.error refusal, values)
  | .ok answer =>
    match s.target? with
    | some target => (.ok answer, values.keep target answer)
    | none => (.ok answer, values)

/-- Runs the steps of a script in order: what each answers. -/
def run {C : Suite} : Values C → List (Step C) → List (Except Refusal (Answer C))
  | _, [] => []
  | values, s :: steps =>
    let (answer, values) := step values s
    answer :: run values steps

end Workbench

end PrivateMatching
